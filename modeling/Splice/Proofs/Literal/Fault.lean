import Splice.Proofs.Build
import Splice.Proofs.Folding.NormalForm
/-!
# Literals — which values have none, and why

What keeps a value from having a literal is in the value itself: a number
that cannot be written, something that is not data, or a key that is
neither text nor a scalar, at any depth (`Store.Has`). Document order, a
key before its own value, says which of these faults is the first
(`Store.First`). Both are said of values in a store, where nothing is
unfolded and nothing is written.

The encoder goes over the tree of the value and stops at the first fault
it meets. Its tree is finite if the value is (`Store.Within`): an object
met again below itself would need as many containers inside it as there
are around it. So the encoder fails exactly on a value that has a fault,
and what it reports is the first one (`Build.literal_first_fault`).
-/

namespace Splice

/-! ## Faults -/

/-- The name of the kind of an object, as messages give it. -/
def Object.typeName : Object → Text
  | .list _ => Container.list.typeName
  | .tuple _ => Container.tuple.typeName
  | .dict _ => Container.dict.typeName
  | .fragment .. => Container.fragment.typeName
  | .tracked .. => Container.tracked.typeName
  | .foreign kind _ => kind.typeName

/-- Whether an object is data: a row or a map. -/
def Object.isData : Object → Bool
  | .list _ | .tuple _ | .dict _ => true
  | _ => false

/-- A scalar that cannot be written, and why. -/
inductive Scalar.IsFault : Scalar → Fault → Prop
  /-- A double that is infinite or not a number. -/
  | float {x : Double} : x.isFinite = false → IsFault (.float x) .outOfRange
  /-- A whole number of more than 4300 digits. -/
  | int {k : Int} : 10 ^ 4300 ≤ k.natAbs → IsFault (.int k) .tooManyDigits

namespace Store

/-- The name of the kind of a value, as messages give it. -/
def typeName (s : Store) : Value → Text
  | .scalar c => c.typeName
  | .text _ => "str"
  | .name _ => "Name"
  | .object r => (s.get r).typeName

/-- What is wrong with a value as an element. -/
inductive IsFault (s : Store) : Value → Fault → Prop
  /-- A scalar that cannot be written. -/
  | scalar {c : Scalar} {f : Fault} : c.IsFault f → IsFault s (.scalar c) f
  /-- A name is not data. -/
  | name (n : Name) : IsFault s (.name n) (.notData "Name")
  /-- An object that is neither a row nor a map is not data. -/
  | object {r : Ref} : (s.get r).isData = false →
      IsFault s (.object r) (.notData (s.get r).typeName)

/-- What is wrong with a value as a key. -/
inductive IsKeyFault (s : Store) : Value → Fault → Prop
  /-- A scalar that cannot be written. -/
  | scalar {c : Scalar} {f : Fault} : c.IsFault f → IsKeyFault s (.scalar c) f
  /-- A name is no key. -/
  | name (n : Name) : IsKeyFault s (.name n) (.badKey "Name")
  /-- No object is a key, data or not. -/
  | object (r : Ref) : IsKeyFault s (.object r) (.badKey (s.get r).typeName)

/-- The object is a row of these values. -/
def IsRow (s : Store) (r : Ref) (xs : List Value) : Prop :=
  s.get r = .list xs ∨ s.get r = .tuple xs

/-- **The fault is in the value**, at any depth. -/
inductive Has (s : Store) : Value → Fault → Prop
  /-- The value itself. -/
  | itself {v : Value} {f : Fault} : s.IsFault v f → Has s v f
  /-- An element of a row. -/
  | element {r : Ref} {xs : List Value} {x : Value} {f : Fault} : s.IsRow r xs → x ∈ xs →
      Has s x f → Has s (.object r) f
  /-- A key of a map. -/
  | key {r : Ref} {es : List (Value × Value)} {e : Value × Value} {f : Fault} :
      s.get r = .dict es → e ∈ es → s.IsKeyFault e.1 f → Has s (.object r) f
  /-- The value of an entry of a map. -/
  | value {r : Ref} {es : List (Value × Value)} {e : Value × Value} {f : Fault} :
      s.get r = .dict es → e ∈ es → Has s e.2 f → Has s (.object r) f

/-- There is no fault in the value. -/
def IsFaultless (s : Store) (v : Value) : Prop := ∀ f, ¬ s.Has v f

/-- There is no fault in the entry. -/
def IsFaultlessEntry (s : Store) (e : Value × Value) : Prop :=
  (∀ f, ¬ s.IsKeyFault e.1 f) ∧ s.IsFaultless e.2

/-- **The fault is the first in the value**, in document order: an element
comes after the elements to its left, and a key before its own value. -/
inductive First (s : Store) : Value → Fault → Prop
  /-- The value itself. -/
  | itself {v : Value} {f : Fault} : s.IsFault v f → First s v f
  /-- The first fault in an element, if the elements before have none. -/
  | element {r : Ref} {before after : List Value} {x : Value} {f : Fault} :
      s.IsRow r (before ++ x :: after) → (∀ y ∈ before, s.IsFaultless y) → First s x f →
      First s (.object r) f
  /-- A key, if the entries before have no fault. -/
  | key {r : Ref} {before after : List (Value × Value)} {e : Value × Value} {f : Fault} :
      s.get r = .dict (before ++ e :: after) → (∀ d ∈ before, s.IsFaultlessEntry d) →
      s.IsKeyFault e.1 f → First s (.object r) f
  /-- The first fault in the value of an entry, if its key and the entries
  before have none. -/
  | value {r : Ref} {before after : List (Value × Value)} {e : Value × Value} {f : Fault} :
      s.get r = .dict (before ++ e :: after) → (∀ d ∈ before, s.IsFaultlessEntry d) →
      (∀ g, ¬ s.IsKeyFault e.1 g) → First s e.2 f → First s (.object r) f

/-- A finite value, in which at most so many rows and maps are nested. What
is not data is not looked into, and neither is a key. -/
inductive Within (s : Store) : Nat → Value → Prop
  /-- A value that is no object. -/
  | bare {n : Nat} {v : Value} : v.IsBare → Within s n v
  /-- An object that is not data. -/
  | foreign {n : Nat} {r : Ref} : (s.get r).isData = false → Within s n (.object r)
  /-- A row. -/
  | row {n : Nat} {r : Ref} {xs : List Value} : s.IsRow r xs → (∀ x ∈ xs, Within s n x) →
      Within s (n + 1) (.object r)
  /-- A map. -/
  | dict {n : Nat} {r : Ref} {es : List (Value × Value)} : s.get r = .dict es →
      (∀ e ∈ es, Within s n e.2) → Within s (n + 1) (.object r)

variable {s : Store} {v : Value} {f : Fault} {n : Nat} {r : Ref}

/-- A fault that is the first is a fault. -/
theorem First.has (h : s.First v f) : s.Has v f := by
  induction h with
  | itself h => exact .itself h
  | element hrow _ _ ih => exact .element hrow (by simp) ih
  | key hget _ hkey => exact .key hget (by simp) hkey
  | value hget _ _ _ ih => exact .value hget (by simp) ih

theorem Within.succ (h : s.Within n v) : s.Within (n + 1) v := by
  induction h with
  | bare h => exact .bare h
  | foreign h => exact .foreign h
  | row hrow _ ih => exact .row hrow ih
  | dict hget _ ih => exact .dict hget ih

theorem IsRow.isData {xs : List Value} (h : s.IsRow r xs) : (s.get r).isData = true := by
  rcases h with h | h <;> rw [h] <;> rfl

theorem IsRow.unique {xs ys : List Value} (h : s.IsRow r xs) (h' : s.IsRow r ys) : xs = ys := by
  rcases h with h | h <;> rcases h' with h' | h' <;> cases h.symm.trans h' <;> rfl

/-- A row without a fault in its elements has none. -/
theorem IsRow.isFaultless {xs : List Value} (h : s.IsRow r xs)
    (hxs : ∀ x ∈ xs, s.IsFaultless x) : s.IsFaultless (.object r) := by
  intro f hf
  cases hf with
  | itself hf =>
    cases hf with
    | object hdata => exact absurd (h.isData.symm.trans hdata) nofun
  | element hrow hx hf =>
    obtain rfl := h.unique hrow
    exact hxs _ hx f hf
  | key hget _ _ => rcases h with h | h <;> cases h.symm.trans hget
  | value hget _ _ => rcases h with h | h <;> cases h.symm.trans hget

/-- And so has a map without one in its entries. -/
theorem isFaultless_dict {es : List (Value × Value)} (h : s.get r = .dict es)
    (hes : ∀ e ∈ es, s.IsFaultlessEntry e) : s.IsFaultless (.object r) := by
  intro f hf
  cases hf with
  | itself hf =>
    cases hf with
    | object hdata => rw [h] at hdata; cases hdata
  | element hrow _ _ => rcases hrow with hrow | hrow <;> cases h.symm.trans hrow
  | key hget he hf =>
    cases h.symm.trans hget
    exact (hes _ he).1 f hf
  | value hget he hf =>
    cases h.symm.trans hget
    exact (hes _ he).2 f hf

end Store

/-! ## What the encoder tells -/

theorem isPrintableInt_eq_false_iff {k : Int} :
    isPrintableInt k = false ↔ 10 ^ 4300 ≤ k.natAbs := by
  rw [isPrintableInt, decide_eq_false_iff_not, Nat.not_lt]

/-- A scalar is written if nothing is wrong with it, and else that is reported. -/
theorem Scalar.encode_fault (c : Scalar) :
    (∀ t, c.encode = .ok t → ∀ f, ¬ c.IsFault f) ∧ ∀ f, c.encode = .error f → c.IsFault f := by
  cases c with
  | null => exact ⟨fun _ _ _ => nofun, nofun⟩
  | bool b => cases b <;> exact ⟨fun _ _ _ => nofun, nofun⟩
  | int k =>
    by_cases hk : isPrintableInt k = true
    · rw [encode, if_pos hk]
      refine ⟨fun _ _ f hf => ?_, nofun⟩
      cases hf with
      | int hk' => exact absurd (hk.symm.trans (isPrintableInt_eq_false_iff.2 hk')) nofun
    · rw [encode, if_neg hk]
      refine ⟨nofun, fun f hf => ?_⟩
      cases hf
      exact .int (isPrintableInt_eq_false_iff.1 (Bool.eq_false_iff.2 hk))
  | float x =>
    by_cases hx : x.isFinite = true
    · rw [encode, if_pos hx]
      refine ⟨fun _ _ f hf => ?_, nofun⟩
      cases hf with
      | float hx' => exact absurd (hx.symm.trans hx') nofun
    · rw [encode, if_neg hx]
      refine ⟨nofun, fun f hf => ?_⟩
      cases hf
      exact .float (Bool.eq_false_iff.2 hx)

namespace Store

variable {s : Store} {v : Value} {n fuel depth : Nat} {r : Ref} {path : List Ref}

/-- The encoder answers for a value without faults, and else fails with the
first of them. -/
structure Tells (s : Store) (v : Value) (x : Except Fault Text) : Prop where
  faultless : ∀ t, x = .ok t → s.IsFaultless v
  first : ∀ f, x = .error f → s.First v f

/-- A value that is not data is its own fault. -/
theorem tells_of_isFault {f : Fault} (h : s.IsFault v f) : s.Tells v (.error f) :=
  ⟨nofun, fun g hg => by cases hg; exact .itself h⟩

theorem tells_scalar (c : Scalar) : s.Tells (.scalar c) c.encode := by
  obtain ⟨hok, herror⟩ := c.encode_fault
  refine ⟨fun t ht f hf => ?_, fun f hf => .itself (.scalar (herror f hf))⟩
  cases hf with
  | itself hf =>
    cases hf with
    | scalar hf => exact hok t ht f hf

theorem tells_text (t : Text) : s.Tells (.text t) (.ok t.encoded) := by
  refine ⟨fun _ _ f hf => ?_, nofun⟩
  cases hf with
  | itself hf => cases hf

theorem tells_bare (h : v.IsBare) : s.Tells v ((s.unfold fuel path v).encodeTo depth) := by
  cases v with
  | name n =>
    rw [unfold, Datum.encodeTo]
    exact tells_of_isFault (.name n)
  | text t =>
    rw [unfold, Datum.encodeTo]
    exact tells_text t
  | scalar c =>
    rw [unfold, Datum.encodeTo]
    exact tells_scalar c
  | object r => exact absurd rfl (h r)

theorem tells_foreign (h : (s.get r).isData = false) (hr : r ∉ path) :
    s.Tells (.object r) ((s.unfold (fuel + 1) path (.object r)).encodeTo depth) := by
  have hfault : s.IsFault (.object r) (.notData (s.get r).typeName) := .object h
  rw [unfold, if_neg hr]
  cases hobject : s.get r with
  | fragment items used e =>
    rw [hobject] at hfault
    exact tells_of_isFault hfault
  | tracked used text? =>
    rw [hobject] at hfault
    exact tells_of_isFault hfault
  | foreign kind text? =>
    rw [hobject] at hfault
    exact tells_of_isFault hfault
  | _ =>
    rw [hobject] at h
    cases h

/-- The elements of a row are told about from the left. -/
theorem tells_items {xs : List Value} {g : Value → Datum}
    (h : ∀ x ∈ xs, s.Tells x ((g x).encodeTo depth)) :
    (∀ ts, Datum.encodeItems depth (xs.map g) = .ok ts → ∀ x ∈ xs, s.IsFaultless x) ∧
      ∀ f, Datum.encodeItems depth (xs.map g) = .error f → ∃ before x after,
        xs = before ++ x :: after ∧ (∀ y ∈ before, s.IsFaultless y) ∧ s.First x f := by
  induction xs with
  | nil => exact ⟨fun _ _ => nofun, nofun⟩
  | cons x xs ih =>
    obtain ⟨hx, hxs⟩ := List.forall_mem_cons.1 h
    obtain ⟨hok, herror⟩ := ih hxs
    rw [List.map_cons, Datum.encodeItems]
    constructor
    · intro ts hts
      obtain ⟨t, ht, hts⟩ := exists_of_bind_eq_ok hts
      obtain ⟨us, hus, -⟩ := exists_of_bind_eq_ok hts
      exact List.forall_mem_cons.2 ⟨hx.faultless t ht, hok us hus⟩
    · intro f hf
      rcases cases_of_bind_eq_error hf with hf | ⟨t, ht, hf⟩
      · exact ⟨[], x, xs, rfl, nofun, hx.first f hf⟩
      · rcases cases_of_bind_eq_error hf with hf | ⟨us, -, hf⟩
        · obtain ⟨before, y, after, rfl, hbefore, hy⟩ := herror f hf
          exact ⟨x :: before, y, after, rfl,
            List.forall_mem_cons.2 ⟨hx.faultless t ht, hbefore⟩, hy⟩
        · cases hf

/-- The first fault of a row of entries: in the key of one, or in its value. -/
def FirstEntry (s : Store) (es : List (Value × Value)) (f : Fault) : Prop :=
  ∃ before e after, es = before ++ e :: after ∧ (∀ d ∈ before, s.IsFaultlessEntry d) ∧
    (s.IsKeyFault e.1 f ∨ (∀ g, ¬ s.IsKeyFault e.1 g) ∧ s.First e.2 f)

/-- What is told about a key. -/
structure TellsKey (s : Store) (v : Value) (x : Except Fault Text) : Prop where
  faultless : ∀ t, x = .ok t → ∀ f, ¬ s.IsKeyFault v f
  fault : ∀ f, x = .error f → s.IsKeyFault v f

/-- Entries are told about from the left, each key before its value. -/
theorem tells_entries {es : List (Value × Value)} {g : Value → Datum}
    (hkeys : ∀ e ∈ es, s.TellsKey e.1 (g e.1).keyText)
    (hvalues : ∀ e ∈ es, s.Tells e.2 ((g e.2).encodeTo depth)) :
    (∀ ts, Datum.encodeEntries depth (es.map fun e => (g e.1, g e.2)) = .ok ts →
        ∀ e ∈ es, s.IsFaultlessEntry e) ∧
      ∀ f, Datum.encodeEntries depth (es.map fun e => (g e.1, g e.2)) = .error f →
        s.FirstEntry es f := by
  induction es with
  | nil => exact ⟨fun _ _ => nofun, nofun⟩
  | cons e es ih =>
    obtain ⟨hkey, hkeys⟩ := List.forall_mem_cons.1 hkeys
    obtain ⟨hvalue, hvalues⟩ := List.forall_mem_cons.1 hvalues
    obtain ⟨hok, herror⟩ := ih hkeys hvalues
    rw [List.map_cons, Datum.encodeEntries]
    constructor
    · intro ts hts
      obtain ⟨k, hk, hts⟩ := exists_of_bind_eq_ok hts
      obtain ⟨t, ht, hts⟩ := exists_of_bind_eq_ok hts
      obtain ⟨us, hus, -⟩ := exists_of_bind_eq_ok hts
      exact List.forall_mem_cons.2 ⟨⟨hkey.faultless k hk, hvalue.faultless t ht⟩, hok us hus⟩
    · intro f hf
      rcases cases_of_bind_eq_error hf with hf | ⟨k, hk, hf⟩
      · exact ⟨[], e, es, rfl, nofun, .inl (hkey.fault f hf)⟩
      rcases cases_of_bind_eq_error hf with hf | ⟨t, ht, hf⟩
      · exact ⟨[], e, es, rfl, nofun, .inr ⟨hkey.faultless k hk, hvalue.first f hf⟩⟩
      rcases cases_of_bind_eq_error hf with hf | ⟨us, -, hf⟩
      · obtain ⟨before, d, after, rfl, hbefore, hd⟩ := herror f hf
        exact ⟨e :: before, d, after, rfl,
          List.forall_mem_cons.2 ⟨⟨hkey.faultless k hk, hvalue.faultless t ht⟩, hbefore⟩, hd⟩
      · cases hf

/-- A row of which the elements are told about is told about. -/
theorem tells_row {xs : List Value} {g : Value → Datum} (hrow : s.IsRow r xs)
    (h : ∀ x ∈ xs, s.Tells x ((g x).encodeTo depth)) :
    s.Tells (.object r) ((Datum.list (xs.map g)).encodeTo (depth + 1)) ∧
      s.Tells (.object r) ((Datum.tuple (xs.map g)).encodeTo (depth + 1)) := by
  obtain ⟨hok, herror⟩ := tells_items h
  rw [Datum.encodeTo, Datum.encodeTo, and_self]
  constructor
  · intro t ht
    obtain ⟨ts, hts, -⟩ := exists_of_bind_eq_ok ht
    exact hrow.isFaultless (hok ts hts)
  · intro f hf
    rcases cases_of_bind_eq_error hf with hf | ⟨ts, -, hf⟩
    · obtain ⟨before, x, after, rfl, hbefore, hx⟩ := herror f hf
      exact .element hrow hbefore hx
    · cases hf

/-- And so is a map. -/
theorem tells_dict {es : List (Value × Value)} {g : Value → Datum} (hget : s.get r = .dict es)
    (hkeys : ∀ e ∈ es, s.TellsKey e.1 (g e.1).keyText)
    (hvalues : ∀ e ∈ es, s.Tells e.2 ((g e.2).encodeTo depth)) :
    s.Tells (.object r)
      ((Datum.dict (es.map fun e => (g e.1, g e.2))).encodeTo (depth + 1)) := by
  obtain ⟨hok, herror⟩ := tells_entries hkeys hvalues
  rw [Datum.encodeTo]
  constructor
  · intro t ht
    obtain ⟨ts, hts, -⟩ := exists_of_bind_eq_ok ht
    exact isFaultless_dict hget (hok ts hts)
  · intro f hf
    rcases cases_of_bind_eq_error hf with hf | ⟨ts, -, hf⟩
    · obtain ⟨before, e, after, rfl, hbefore, he | ⟨hkey, he⟩⟩ := herror f hf
      · exact .key hget hbefore he
      · exact .value hget hbefore hkey he
    · cases hf

/-- The objects of a path are data that nests deeper than so much. -/
def Beyond (s : Store) (n : Nat) (path : List Ref) : Prop :=
  ∀ p ∈ path, ¬ s.Within n (.object p)

theorem Beyond.not_mem (h : s.Beyond n path) (hr : s.Within n (.object r)) : r ∉ path :=
  fun hmem => h r hmem hr

/-- The type of a key is that of its tree, also where it is met again. -/
theorem typeName_unfold (hpath : s.Beyond n path) (r : Ref) :
    (s.unfold (fuel + 1) path (.object r)).keyText = .error (.badKey (s.get r).typeName) := by
  rw [unfold]
  split
  · have hdata : (s.get r).isData ≠ false := fun h => hpath r ‹_› (.foreign h)
    rw [back]
    cases hobject : s.get r <;> first
      | rfl
      | exact absurd (hobject ▸ rfl) hdata
  · cases s.get r <;> rfl

theorem tells_key (hpath : s.Beyond n path) (v : Value) :
    s.TellsKey v (s.unfold (fuel + 1) path v).keyText := by
  cases v with
  | name n =>
    rw [unfold]
    exact ⟨nofun, fun f hf => by cases hf; exact .name n⟩
  | text t =>
    rw [unfold]
    exact ⟨fun _ _ _ => nofun, nofun⟩
  | scalar c =>
    rw [unfold, Datum.keyText]
    obtain ⟨hok, herror⟩ := c.encode_fault
    refine ⟨fun t ht f hf => ?_, fun f hf => .scalar (herror f hf)⟩
    cases hf with
    | scalar hf => exact hok t ht f hf
  | object r =>
    rw [typeName_unfold hpath r]
    exact ⟨nofun, fun f hf => by cases hf; exact .object r⟩

/-- **The encoder tells the first fault** in the tree of a finite value. -/
theorem Within.tells (h : s.Within n v) (hfuel : n < fuel) (hdepth : n ≤ depth)
    (hpath : s.Beyond n path) : s.Tells v ((s.unfold fuel path v).encodeTo depth) := by
  induction n generalizing v fuel depth path with
  | zero =>
    obtain ⟨fuel, rfl⟩ := Nat.exists_eq_add_one.2 hfuel
    cases h with
    | bare h => exact tells_bare h
    | foreign h => exact tells_foreign h (hpath.not_mem (.foreign h))
  | succ n ih =>
    by_cases hless : s.Within n v
    · exact ih hless (by omega) (by omega) fun p hp => mt .succ (hpath p hp)
    obtain ⟨fuel, rfl⟩ : ∃ k, fuel = k + 2 := ⟨fuel - 2, by omega⟩
    obtain ⟨depth, rfl⟩ : ∃ k, depth = k + 1 := ⟨depth - 1, by omega⟩
    -- An object that needs all the depth there is does not lie below itself.
    have hbelow : ∀ {r}, v = .object r → s.Beyond n (r :: path) := by
      rintro r rfl p hp
      rcases List.mem_cons.1 hp with rfl | hp
      · exact hless
      · exact mt .succ (hpath p hp)
    cases h with
    | bare h => exact absurd (.bare h) hless
    | foreign h => exact absurd (.foreign h) hless
    | row hrow hxs =>
      have hnot := hpath.not_mem (.row hrow hxs)
      obtain ⟨hlist, htuple⟩ := tells_row hrow fun x hx =>
        ih (hxs x hx) (show n < fuel + 1 by omega) (show n ≤ depth by omega) (hbelow rfl)
      rw [unfold, if_neg hnot]
      rcases hrow with hrow | hrow <;> rw [hrow]
      · exact hlist
      · exact htuple
    | dict hget hes =>
      rw [unfold, if_neg (hpath.not_mem (.dict hget hes)), hget]
      exact tells_dict hget (fun e _ => tells_key (hbelow rfl) e.1) fun e he =>
        ih (hes e he) (by omega) (by omega) (hbelow rfl)

/-- The type of a value is that of its tree. -/
theorem typeName_datum (s : Store) (v : Value) : (s.datum v).typeName = s.typeName v := by
  cases v with
  | object r =>
    rw [datum, Datum.reach, unfold, if_neg List.not_mem_nil, typeName]
    cases s.get r <;> rfl
  | _ => rfl

/-- Two splits of a list at the first element that lacks a property are one. -/
theorem split_unique {α : Type} {p : α → Prop} {before after before' after' : List α} {x x' : α}
    (h : before ++ x :: after = before' ++ x' :: after') (hbefore : ∀ y ∈ before, p y) (hx : ¬ p x)
    (hbefore' : ∀ y ∈ before', p y) (hx' : ¬ p x') : x = x' := by
  rcases List.append_eq_append_iff.1 h with ⟨zs, rfl, hzs⟩ | ⟨zs, rfl, hzs⟩ <;> cases zs with
  | nil => simp at hzs; simp [hzs]
  | cons z zs =>
    cases hzs
    first
      | exact absurd (hbefore' _ (by simp)) hx
      | exact absurd (hbefore _ (by simp)) hx'

theorem IsFault.unique {g : Fault} (hf : s.IsFault v f) (hg : s.IsFault v g) : f = g := by
  cases hf with
  | scalar hf => cases hg with | scalar hg => cases hf <;> cases hg <;> rfl
  | name => cases hg; rfl
  | object => cases hg; rfl

theorem IsKeyFault.unique {g : Fault} (hf : s.IsKeyFault v f) (hg : s.IsKeyFault v g) : f = g := by
  cases hf with
  | scalar hf => cases hg with | scalar hg => cases hf <;> cases hg <;> rfl
  | name => cases hg; rfl
  | object => cases hg; rfl

/-- In an entry that is the first with a fault there is one. -/
theorem not_isFaultlessEntry {e : Value × Value}
    (h : s.IsKeyFault e.1 f ∨ (∀ g, ¬ s.IsKeyFault e.1 g) ∧ s.First e.2 f) :
    ¬ s.IsFaultlessEntry e := by
  rintro ⟨hkey, hvalue⟩
  rcases h with h | ⟨-, h⟩
  · exact hkey f h
  · exact hvalue f h.has

/-- The first fault of a row is in an element. -/
theorem IsRow.first {xs : List Value} (hrow : s.IsRow r xs) (h : s.First (.object r) f) :
    ∃ before x after, xs = before ++ x :: after ∧ (∀ y ∈ before, s.IsFaultless y) ∧
      s.First x f := by
  cases h with
  | itself h => cases h with | object hdata => exact absurd (hrow.isData.symm.trans hdata) nofun
  | element hrow' hbefore h => exact ⟨_, _, _, hrow.unique hrow', hbefore, h⟩
  | key hget | value hget => rcases hrow with hrow | hrow <;> cases hrow.symm.trans hget

/-- The first fault of a map is in an entry. -/
theorem firstEntry {es : List (Value × Value)} (hget : s.get r = .dict es)
    (h : s.First (.object r) f) : s.FirstEntry es f := by
  cases h with
  | itself h => cases h with | object hdata => rw [hget] at hdata; cases hdata
  | element hrow => rcases hrow with hrow | hrow <;> cases hget.symm.trans hrow
  | key hget' hbefore hkey =>
    exact ⟨_, _, _, Object.dict.inj (hget.symm.trans hget'), hbefore, .inl hkey⟩
  | value hget' hbefore hkey h =>
    exact ⟨_, _, _, Object.dict.inj (hget.symm.trans hget'), hbefore, .inr ⟨hkey, h⟩⟩

/-- **A value has at most one first fault.** -/
theorem First.unique {g : Fault} (hf : s.First v f) (hg : s.First v g) : f = g := by
  induction hf with
  | itself hf =>
    cases hg with
    | itself hg => exact hf.unique hg
    | element hrow => cases hf with | object h => exact absurd (hrow.isData.symm.trans h) nofun
    | key hget | value hget => cases hf with | object h => rw [hget] at h; cases h
  | element hrow hbefore hf ih =>
    obtain ⟨before, x, after, hsplit, hbefore', hg⟩ := hrow.first hg
    obtain rfl := split_unique hsplit hbefore (fun h => h _ hf.has) hbefore' (fun h => h _ hg.has)
    exact ih hg
  | key hget hbefore hf =>
    obtain ⟨before, e, after, hsplit, hbefore', hg⟩ := firstEntry hget hg
    obtain rfl := split_unique hsplit hbefore (not_isFaultlessEntry (.inl hf)) hbefore'
      (not_isFaultlessEntry hg)
    rcases hg with hg | ⟨hkey, -⟩
    · exact hf.unique hg
    · exact absurd hf (hkey _)
  | value hget hbefore hkey hf ih =>
    obtain ⟨before, e, after, hsplit, hbefore', hg⟩ := firstEntry hget hg
    obtain rfl := split_unique hsplit hbefore (not_isFaultlessEntry (.inr ⟨hkey, hf⟩)) hbefore'
      (not_isFaultlessEntry hg)
    rcases hg with hg | ⟨-, hg⟩
    · exact absurd hg (hkey _)
    · exact ih hg

end Store

namespace Build

variable {σ : Session} {v : Value}

/-- **A value fails to be encoded exactly if there is a fault in it**, and
what is reported is the first one: the error names the type of the whole
value and gives the reason and the cause of the fault, and one event with
the same reason is logged. The value is finite and nests no deeper than
literals reach. -/
theorem literal_first_fault (h : σ.store.Within Datum.maxDepth v) :
    ((∃ e τ, literal v σ = .error e τ) ↔ ∃ f, σ.store.Has v f) ∧
      ∀ e τ, literal v σ = .error e τ ↔ ∃ f, σ.store.First v f ∧
        e = .notEncodable (σ.store.typeName v) f ∧
        e.message? = some (Text.ofString "Cannot encode " ++ σ.store.typeName v ++
          Text.ofString " as a literal: " ++ f.reason) ∧
        e.cause? = some f.cause ∧
        τ = ⟨σ.store, σ.log ++ [.encodingFailed (σ.store.typeName v) f]⟩ := by
  have htells : σ.store.Tells v ((σ.store.datum v).encodeTo Datum.maxDepth) :=
    h.tells (by decide) (Nat.le_refl _) nofun
  cases hencode : (σ.store.datum v).encodeTo Datum.maxDepth with
  | ok t =>
    have hnone := htells.faultless t hencode
    have hok : literal v σ = .ok t.cleared σ := literal_of_ok (by rw [Datum.encode, hencode]; rfl)
    refine ⟨⟨?_, fun ⟨f, hf⟩ => absurd hf (hnone f)⟩, fun e τ => ⟨?_, ?_⟩⟩
    · rintro ⟨e, τ, herror⟩
      cases hok.symm.trans herror
    · intro herror
      cases hok.symm.trans herror
    · rintro ⟨f, hf, -⟩
      exact absurd hf.has (hnone f)
  | error f =>
    have hfirst := htells.first f hencode
    have hfails : literal v σ = .error (.notEncodable (σ.store.typeName v) f)
        ⟨σ.store, σ.log ++ [.encodingFailed (σ.store.typeName v) f]⟩ := by
      rw [← Store.typeName_datum]
      exact literal_of_error (by rw [Datum.encode, hencode]; rfl)
    refine ⟨⟨fun _ => ⟨f, hfirst.has⟩, fun _ => ⟨_, _, hfails⟩⟩, fun e τ => ⟨?_, ?_⟩⟩
    · intro herror
      cases hfails.symm.trans herror
      exact ⟨f, hfirst, rfl, rfl, rfl, rfl⟩
    · rintro ⟨g, hg, rfl, -, -, rfl⟩
      rw [hfirst.unique hg] at hfails
      exact hfails

/-- In a map behind a good entry, the fault of the key comes before the one
of its value, and both before what is no data further right. -/
theorem literal_first_fault_nested :
    let σ : Session := ⟨⟨#[.list [.scalar (.bool true), .text "a"], .foreign .set none,
      .tuple [.object ⟨1⟩, .scalar (.float ⟨0x7FF0000000000000⟩)],
      .dict [(.text "k", .object ⟨0⟩), (.scalar (.float ⟨0x7FF8000000000000⟩), .object ⟨2⟩),
        (.object ⟨0⟩, .name ⟨"n", by decide⟩)],
      .list [.object ⟨0⟩, .object ⟨3⟩, .object ⟨1⟩]]⟩, []⟩
    σ.store.Within Datum.maxDepth (.object ⟨4⟩) ∧
      literal (.object ⟨4⟩) σ =
        .error (.notEncodable "list" .outOfRange)
          ⟨σ.store, [.encodingFailed "list" .outOfRange]⟩ := by
  intro σ
  have hrow : σ.store.IsRow ⟨0⟩ [.scalar (.bool true), .text "a"] := .inl rfl
  have hgood : σ.store.IsFaultless (.object ⟨0⟩) := by
    refine hrow.isFaultless (List.forall_mem_cons.2 ⟨?_, List.forall_mem_singleton.2 ?_⟩)
    · exact (Store.tells_scalar (.bool true)).faultless _ rfl
    · exact (Store.tells_text "a").faultless _ rfl
  have hset {n : Nat} : σ.store.Within n (.object ⟨1⟩) := .foreign rfl
  have hlist {n : Nat} : σ.store.Within (n + 1) (.object ⟨0⟩) :=
    .row hrow (List.forall_mem_cons.2 ⟨.bare nofun, List.forall_mem_singleton.2 (.bare nofun)⟩)
  have hpair {n : Nat} : σ.store.Within (n + 1) (.object ⟨2⟩) :=
    .row (.inr rfl) (List.forall_mem_cons.2 ⟨hset, List.forall_mem_singleton.2 (.bare nofun)⟩)
  have hmap {n : Nat} : σ.store.Within (n + 2) (.object ⟨3⟩) :=
    .dict rfl (List.forall_mem_cons.2 ⟨hlist, List.forall_mem_cons.2 ⟨hpair,
      List.forall_mem_singleton.2 (.bare nofun)⟩⟩)
  have hwithin : σ.store.Within Datum.maxDepth (.object ⟨4⟩) :=
    .row (.inl rfl) (List.forall_mem_cons.2 ⟨hlist, List.forall_mem_cons.2 ⟨hmap,
      List.forall_mem_singleton.2 hset⟩⟩)
  have hentries : σ.store.get ⟨3⟩ = .dict ([(.text "k", .object ⟨0⟩)] ++
      (.scalar (.float ⟨0x7FF8000000000000⟩), .object ⟨2⟩) ::
        [(.object ⟨0⟩, .name ⟨"n", by decide⟩)]) := rfl
  have hitems : σ.store.IsRow ⟨4⟩ ([.object ⟨0⟩] ++ .object ⟨3⟩ :: [.object ⟨1⟩]) := .inl rfl
  have hkey : σ.store.First (.object ⟨3⟩) .outOfRange := by
    refine .key hentries ?_ (.scalar (.float (by decide)))
    exact List.forall_mem_singleton.2 ⟨fun _ => nofun, hgood⟩
  have hfirst : σ.store.First (.object ⟨4⟩) .outOfRange :=
    .element hitems (List.forall_mem_singleton.2 hgood) hkey
  exact ⟨hwithin, ((literal_first_fault hwithin).2 _ _).2
    ⟨.outOfRange, hfirst, rfl, rfl, rfl, rfl⟩⟩

end Build

end Splice
