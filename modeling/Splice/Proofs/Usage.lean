import Splice.Proofs.Build
/-!
# Usage — maps that count in whole numbers

What the operations of this library put into a usage map are texts as
keys and whole numbers as counts (`Usage.IsWhole`). As long as that is
all there is in it, adding uses never fails, changes no object, and leaves
such a map again (`Build.addUses_of_usesOf`).
-/

namespace Splice

/-- A usage map that counts texts in whole numbers. -/
def Usage.IsWhole (m : Usage) : Prop := ∀ e ∈ m, ∃ t n, e = (.text t, .scalar (.int n))

/-- A value that stands for a usage map: nothing, or a map that counts in
whole numbers. -/
inductive Store.Counts (s : Store) : Value → Prop
  /-- No map. -/
  | none : Counts s (.scalar .null)
  /-- A map. -/
  | map {u : Ref} {m : Usage} : s.get u = .dict m → m.IsWhole → Counts s (.object u)

namespace Usage

variable {s : Store} {m : Usage}

theorem isWhole_nil : IsWhole [] := fun _ h => nomatch h

theorem isWhole_cons {e : Value × Value} :
    IsWhole (e :: m) ↔ (∃ t n, e = (.text t, .scalar (.int n))) ∧ m.IsWhole :=
  List.forall_mem_cons

/-- The use of a name by itself. -/
theorem isWhole_singleton (t : Text) (n : Int) : IsWhole [(.text t, .scalar (.int n))] :=
  isWhole_cons.2 ⟨⟨t, n, rfl⟩, isWhole_nil⟩

theorem IsWhole.put (h : m.IsWhole) (t : Text) (n : Int) :
    (m.put s (.text t) (.scalar (.int n))).IsWhole := by
  -- The entry of the key is replaced where it is, or else comes last.
  induction m with
  | nil => exact isWhole_singleton t n
  | cons e m ih =>
    obtain ⟨⟨u, k, rfl⟩, hm⟩ := isWhole_cons.1 h
    rw [Usage.put]
    split
    · exact isWhole_cons.2 ⟨⟨u, n, rfl⟩, hm⟩
    · exact isWhole_cons.2 ⟨⟨u, k, rfl⟩, ih hm⟩

/-- The count of a key is a whole number, also where it is zero for want
of a better one. -/
theorem IsWhole.count (h : m.IsWhole) (key : Value) : ∃ n, m.count s key = .scalar (.int n) := by
  rw [Usage.count, Store.valueAt]
  cases hfind : m.find? fun e => s.sameKey e.1 key with
  | none => exact ⟨0, rfl⟩
  | some e =>
    obtain ⟨t, n, rfl⟩ := h e (List.mem_of_find?_eq_some hfind)
    exact ⟨n, rfl⟩

/-- A whole number counts for itself. -/
theorem countedAmount_int (n : Int) : s.countedAmount (.scalar (.int n)) = .ok (.whole n) := by
  rw [Store.countedAmount]
  split
  · rfl
  · rename_i hfalse
    have hzero : n = 0 := by simpa [Store.isTruthy, Scalar.isTruthy] using hfalse
    rw [hzero]

theorem IsWhole.total (h : m.IsWhole) (factor n : Int) (key : Value) :
    ∃ k, m.total s factor key (.scalar (.int n)) = .ok (.whole k) := by
  obtain ⟨k, hk⟩ := h.count (s := s) key
  refine ⟨k + factor * n, ?_⟩
  rw [Usage.total, countedAmount_int, hk]
  rfl

end Usage

namespace Build

variable {σ : Session} {m : Usage}

/-- One more count. -/
theorem addCount_of_isWhole (h : m.IsWhole) (factor n : Int) (t : Text) :
    ∃ m', addCount factor m (.text t, .scalar (.int n)) σ = .ok m' σ ∧ m'.IsWhole := by
  obtain ⟨k, hk⟩ := h.total (s := σ.store) factor n (.text t)
  refine ⟨m.put σ.store (.text t) (.scalar (.int k)), ?_, h.put t k⟩
  rw [addCount, bind_of_ok (read_of_ok hk)]
  rfl

theorem foldlM_addCount {uses : Usage} (huses : uses.IsWhole) (h : m.IsWhole) :
    ∃ m', uses.foldlM (addCount 1) m σ = .ok m' σ ∧ m'.IsWhole := by
  induction uses generalizing m with
  | nil => exact ⟨m, rfl, h⟩
  | cons e uses ih =>
    obtain ⟨⟨t, n, rfl⟩, hrest⟩ := Usage.isWhole_cons.1 huses
    obtain ⟨m₁, hadd, h₁⟩ := addCount_of_isWhole (σ := σ) h 1 n t
    obtain ⟨m₂, hrest, h₂⟩ := ih hrest h₁
    exact ⟨m₂, by rw [List.foldlM_cons, bind_of_ok hadd, hrest], h₂⟩

/-- A map counts what its entries say, also if it is empty. -/
theorem countsIn_of_get {s : Store} {u : Ref} {m : Usage} (hu : s.get u = .dict m) :
    s.countsIn (.object u) = .ok m := by
  cases m with
  | nil => simp [Store.countsIn, Store.isTruthy, hu]
  | cons e m => simp [Store.countsIn, Store.isTruthy, hu]

/-- What a value with such a map uses. -/
theorem countsIn_of_counts {s : Store} {used : Value} (h : s.Counts used) :
    ∃ m : Usage, s.countsIn used = .ok m ∧ m.IsWhole := by
  cases h with
  | none => exact ⟨[], rfl, Usage.isWhole_nil⟩
  | @map u m hu hm => exact ⟨m, countsIn_of_get hu, hm⟩

/-- **Adding uses** that are counted in whole numbers succeeds, and
changes no object. -/
theorem addUses_of_usesOf {v : Value} {uses : Usage} (hv : σ.store.usesOf v = .ok uses)
    (huses : uses.IsWhole) (h : m.IsWhole) :
    ∃ m', addUses m v σ = .ok m' σ ∧ m'.IsWhole := by
  obtain ⟨m', hadd, h'⟩ := foldlM_addCount (σ := σ) huses h
  exact ⟨m', by rw [addUses, bind_of_ok (read_of_ok hv), hadd], h'⟩

end Build

end Splice
