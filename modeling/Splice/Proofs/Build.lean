import Splice.Fragment
/-!
# Operations — the steps of a run

A run of an operation is taken apart at its steps: what one step leaves
is what the next starts from (`bind_of_ok`, `bind_eq_ok`). The basic
operations say in one line what they answer and leave. The last part
says what stays as it is when a store grows, which is all that most
operations do to it.
-/

namespace Splice

/-! ## Computations without a session -/

section

variable {ε α β : Type} {x : Except ε α} {f : α → Except ε β}

/-- A computation that answers does so in its first part. -/
theorem exists_of_bind_eq_ok {b : β} (h : x >>= f = .ok b) : ∃ a, x = .ok a ∧ f a = .ok b := by
  cases x with
  | error e => cases h
  | ok a => exact ⟨a, rfl, h⟩

/-- A computation that fails does so in its first part, or goes on and fails there. -/
theorem cases_of_bind_eq_error {e : ε} (h : x >>= f = .error e) :
    x = .error e ∨ ∃ a, x = .ok a ∧ f a = .error e := by
  cases x with
  | error e' =>
    cases h
    exact .inl rfl
  | ok a => exact .inr ⟨a, rfl, h⟩

end

/-! ## Runs -/

namespace Build

variable {α β : Type} {σ τ : Session} {x : Build α} {f : α → Build β} {a : α} {b : β}

/-- A run goes on with what its first step answers. -/
theorem bind_of_ok (h : x σ = .ok a τ) : (x >>= f) σ = f a τ := by
  simp only [bind, EStateM.bind, h]

/-- A run fails where its first step does. -/
theorem bind_of_error {e : Failure} (h : x σ = .error e τ) : (x >>= f) σ = .error e τ := by
  simp only [bind, EStateM.bind, h]

/-- Two runs are alike if their first steps are, and what goes on from there. -/
theorem bind_congr {y : Build α} {g : α → Build β} (h : x σ = y σ)
    (hf : ∀ a τ, x σ = .ok a τ → f a τ = g a τ) : (x >>= f) σ = (y >>= g) σ := by
  cases hx : x σ with
  | ok a τ => rw [bind_of_ok hx, bind_of_ok (h ▸ hx), hf a τ hx]
  | error e τ => rw [bind_of_error hx, bind_of_error (h ▸ hx)]

/-- **A run that succeeds** succeeds in its first step, and in the rest
from there. -/
theorem bind_eq_ok {υ : Session} :
    (x >>= f) σ = .ok b υ ↔ ∃ a τ, x σ = .ok a τ ∧ f a τ = .ok b υ := by
  constructor
  · intro h
    simp only [bind, EStateM.bind] at h
    split at h
    · exact ⟨_, _, ‹_›, h⟩
    · cases h
  · rintro ⟨a, τ, hx, hf⟩
    rw [bind_of_ok hx, hf]

@[simp] theorem pure_apply : (pure a : Build α) σ = .ok a σ := rfl

@[simp] theorem ask_apply (f : Store → α) : ask f σ = .ok (f σ.store) σ := rfl

@[simp] theorem load_apply (r : Ref) : load r σ = .ok (σ.store.get r) σ := rfl

@[simp] theorem alloc_apply (o : Object) :
    alloc o σ = .ok (.object σ.store.next) ⟨σ.store.push o, σ.log⟩ := rfl

@[simp] theorem write_apply (r : Ref) (o : Object) :
    write r o σ = .ok () ⟨σ.store.set r o, σ.log⟩ := rfl

@[simp] theorem report_apply (e : Event) : report e σ = .ok () ⟨σ.store, σ.log ++ [e]⟩ := rfl

theorem read_of_ok {f : Store → Except Failure α} (h : f σ.store = .ok a) : read f σ = .ok a σ := by
  simp only [read, h]

theorem read_of_error {f : Store → Except Failure α} {e : Failure} (h : f σ.store = .error e) :
    read f σ = .error e σ := by
  simp only [read, h]

theorem read_eq_ok {f : Store → Except Failure α} :
    read f σ = .ok a τ ↔ f σ.store = .ok a ∧ τ = σ := by
  constructor
  · intro h
    simp only [read] at h
    split at h
    · injection h with ha hτ
      exact ⟨ha ▸ ‹_›, hτ.symm⟩
    · cases h
  · rintro ⟨h, rfl⟩
    exact read_of_ok h

theorem literal_of_ok {v : Value} {t : Text} (h : (σ.store.datum v).encode = .ok t) :
    literal v σ = .ok t σ := by
  simp only [literal, h]

/-- A value without a literal is reported. -/
theorem literal_of_error {v : Value} {fault : Fault}
    (h : (σ.store.datum v).encode = .error fault) :
    literal v σ = .error (.notEncodable (σ.store.datum v).typeName fault)
      ⟨σ.store, σ.log ++ [.encodingFailed (σ.store.datum v).typeName fault]⟩ := by
  simp only [literal, h]

theorem literal_eq_ok {v : Value} {t : Text} :
    literal v σ = .ok t τ ↔ (σ.store.datum v).encode = .ok t ∧ τ = σ := by
  constructor
  · intro h
    simp only [literal] at h
    split at h
    · injection h with ht hτ
      exact ⟨ht ▸ ‹_›, hτ.symm⟩
    · cases h
  · rintro ⟨h, rfl⟩
    exact literal_of_ok h

@[simp] theorem literal_text (t : Text) : literal (.text t) σ = .ok t.literal σ :=
  literal_of_ok rfl

end Build

/-! ## Growing stores -/

namespace Store

variable {s : Store} {r : Ref} {o : Object}

/-- Every object of a kind that the store does not answer by default is in it. -/
theorem live_of_get (h : s.get r = o) (ho : o ≠ .foreign .object none) : s.Live r := by
  rcases Nat.lt_or_ge r.address s.objects.size with hr | hr
  · exact hr
  · refine absurd ?_ ho
    rw [← h, get, Array.getD_eq_getD_getElem?, Array.getElem?_eq_none hr]
    rfl

theorem live_of_list {xs : List Value} (h : s.get r = .list xs) : s.Live r := live_of_get h nofun

theorem live_of_dict {es : List (Value × Value)} (h : s.get r = .dict es) : s.Live r :=
  live_of_get h nofun

theorem live_of_fragment {items used : Value} {e : Bool} (h : s.get r = .fragment items used e) :
    s.Live r := live_of_get h nofun

/-- Writing to an object leaves what is another object as it is. -/
theorem get_set_of_ne {q : Ref} {o' p : Object} (hq : s.get q = o) (hr : s.get r = o')
    (h : o ≠ o') : (s.set q p).get r = o' := by
  rw [get_set_ne, hr]
  rintro rfl
  exact h (hq.symm.trans hr)

/-- So writing to a list leaves a fragment as it is. -/
theorem get_fragment_of_set {q : Ref} {xs : List Value} {items used : Value} {e : Bool} {p : Object}
    (hq : s.get q = .list xs) (hr : s.get r = .fragment items used e) :
    (s.set q p).get r = .fragment items used e := get_set_of_ne hq hr nofun

/-- Of two writes to one object the last one counts. -/
theorem set_set (o o' : Object) : (s.set r o).set r o' = s.set r o' := by
  simp [set]

/-- To write what is there changes nothing. -/
theorem set_get (h : s.get r = o) : s.set r o = s := by
  have hobjects : s.objects.setIfInBounds r.address o = s.objects := by
    refine Array.ext_getElem? fun i => ?_
    by_cases hi : r.address = i
    · subst hi
      rw [Array.getElem?_setIfInBounds_self, ← h, get, Array.getD_eq_getD_getElem?]
      split
      · rw [Array.getElem?_eq_getElem ‹_›, Option.getD_some]
      · rw [Array.getElem?_eq_none (Nat.le_of_not_lt ‹_›)]
    · exact Array.getElem?_setIfInBounds_ne hi
  rw [set, hobjects]

theorem live_push (h : s.Live r) : (s.push o).Live r := by
  simp only [Live, push, Array.size_push] at h ⊢
  omega

/-- The new object is at the next reference, and any other one where it was. -/
theorem get_push : (s.push o).get r = if r = s.next then o else s.get r := by
  split
  · rw [‹r = s.next›, get_push_next]
  · rcases Nat.lt_trichotomy r.address s.objects.size with hr | hr | hr
    · exact get_push_live hr
    · exact absurd (congrArg Ref.mk hr) ‹_›
    · simp only [get, push, Array.getD_eq_getD_getElem?]
      rw [Array.getElem?_eq_none (by rw [Array.size_push]; omega),
        Array.getElem?_eq_none (by omega)]

theorem live_next_push : (s.push o).Live s.next := by
  simp [Live, push, next]

end Store

end Splice
