import Splice.Store.Equal
/-!
# Store — running operations, and what they report

An operation runs over a session: the store as it is, and the events
reported so far. When an operation fails, what it has changed and
reported until then stays changed and reported.
-/

namespace Splice

/-- What an operation reports while it runs. -/
inductive Event
  /-- A value was refused as a name. -/
  | nameRejected (rejected : Value)
  /-- A value of the named type has no literal. -/
  | encodingFailed (typeName : Text) (fault : Fault)
  /-- A fragment was folded: the merges made, and the items it has afterwards. -/
  | folded (merges items : Nat)
deriving DecidableEq

/-- The store, and the events reported so far, oldest first. -/
structure Session where
  /-- The objects. -/
  store : Store
  /-- The events. -/
  log : List Event

/-- A session in which nothing has happened. -/
def Session.initial : Session := ⟨.initial, []⟩

/-- An operation over a session. -/
abbrev Build := EStateM Failure Session

namespace Build

/-- The answer of a function that only reads the store. -/
def read {α : Type} (f : Store → Except Failure α) : Build α := fun σ =>
  match f σ.store with
  | .ok a => .ok a σ
  | .error e => .error e σ

/-- What a function that cannot fail reads off the store. -/
def ask {α : Type} (f : Store → α) : Build α := fun σ => .ok (f σ.store) σ

/-- The object of a reference. -/
def load (r : Ref) : Build Object := ask fun s => s.get r

/-- Puts another object in the place of one. -/
def write (r : Ref) (o : Object) : Build Unit := fun σ =>
  .ok () ⟨σ.store.set r o, σ.log⟩

/-- A new object. -/
def alloc (o : Object) : Build Value := fun σ =>
  .ok (.object σ.store.next) ⟨σ.store.push o, σ.log⟩

/-- A different number each time: the address of an object made for it. -/
def fresh : Build Nat := fun σ =>
  .ok σ.store.next.address ⟨σ.store.push (.foreign .object none), σ.log⟩

/-- A double that is not a number, a different one each time. -/
def undefined : Build Value := do return .scalar (.float (.undefined (← fresh)))

/-- The elements of a value that holds elements, in order. The element of
a name is a new object. -/
def elements (v : Value) : Build (List Value) := do
  match v with
  | .name n => return [← alloc n.field]
  | _ => read fun s => s.elements v

/-- Reports an event. -/
def report (e : Event) : Build Unit := fun σ => .ok () ⟨σ.store, σ.log ++ [e]⟩

/-- The name of a value, which has to be the text of an identifier. A
value that is refused is reported first. -/
def name (v : Value) : Build Value := do
  match v with
  | .text t =>
    match Name.ofText? t with
    | some n => return .name n
    | none => refuse
  | _ => refuse
where
  refuse : Build Value := do
    report (.nameRejected v)
    let shown ← read fun s => s.display v
    throw (.notIdentifier v shown)

end Build

end Splice
