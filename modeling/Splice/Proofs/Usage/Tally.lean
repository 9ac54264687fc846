import Splice.Proofs.Usage
import Mathlib.Data.List.Nodup
import Mathlib.Logic.Function.Basic
/-!
# Usage — maps that count names

A tally is a usage map that has one entry for each name that is used, with
the number of its uses, and no other entry (`Usage.Tallies`). The tally
of a row of items is that of the names in it (`namesIn`). Adding the uses
of one tally to another gives the tally of the sums
(`Build.foldlM_addCount_of_tallies`), so as long as items and their counts
are put together side by side, the counts stay those of the items.
-/

namespace Splice

open Function

/-- How often each name is among the items. -/
def namesIn (xs : List Value) (n : Name) : Nat := xs.count (.name n)

section NamesIn

variable {xs ys : List Value}

theorem namesIn_append (xs ys : List Value) :
    namesIn (xs ++ ys) = fun n => namesIn xs n + namesIn ys n :=
  funext fun _ => List.count_append

theorem namesIn_name (n : Name) : namesIn [.name n] = update (fun _ => 0) n 1 := by
  funext m
  by_cases h : m = n
  · subst h
    simp [namesIn]
  · rw [update_of_ne h]
    exact List.count_eq_zero_of_not_mem (by simpa using h)

/-- What is no name is counted for none. -/
theorem namesIn_of_forall_ne (h : ∀ x ∈ xs, ∀ n, x ≠ .name n) : namesIn xs = fun _ => 0 :=
  funext fun n => List.count_eq_zero_of_not_mem fun hn => h _ hn n rfl

end NamesIn

namespace Usage

/-- The entry for a name. -/
def entry (n : Name) (k : Nat) : Value × Value := (.text n.text, .scalar (.int k))

/-- The map counts exactly the names with a positive number of uses. -/
inductive Tallies : Usage → (Name → Nat) → Prop
  /-- No uses. -/
  | nil : Tallies [] fun _ => 0
  /-- The uses of one more name. -/
  | cons {n : Name} {k : Nat} {m : Usage} {f : Name → Nat} : f n = 0 → 0 < k → Tallies m f →
      Tallies (entry n k :: m) (update f n k)

variable {s : Store} {m : Usage} {f : Name → Nat}

theorem tallies_name (n : Name) : Tallies [entry n 1] (namesIn [.name n]) := by
  rw [namesIn_name]
  exact .cons rfl Nat.one_pos .nil

/-- The entries are those of the names that are used. -/
theorem Tallies.exists_entry (h : m.Tallies f) {e : Value × Value} (he : e ∈ m) :
    ∃ n, e = entry n (f n) ∧ 0 < f n := by
  induction h with
  | nil => cases he
  | @cons n k m f hn hk _ ih =>
    rcases List.mem_cons.1 he with rfl | he
    · exact ⟨n, by rw [update_self], by rwa [update_self]⟩
    · obtain ⟨n', rfl, hn'⟩ := ih he
      have hne : n' ≠ n := by
        rintro rfl
        omega
      exact ⟨n', by rw [update_of_ne hne], by rwa [update_of_ne hne]⟩

/-- What is counted are whole numbers. -/
theorem Tallies.isWhole (h : m.Tallies f) : m.IsWhole := by
  intro e he
  obtain ⟨n, rfl, -⟩ := h.exists_entry he
  exact ⟨n.text, f n, rfl⟩

/-- No name has two entries. -/
theorem Tallies.nodup (h : m.Tallies f) : (m.map Prod.fst).Nodup := by
  induction h with
  | nil => exact List.nodup_nil
  | @cons n k m f hn hk htail ih =>
    refine List.nodup_cons.2 ⟨fun hmem => ?_, ih⟩
    obtain ⟨e, he, heq⟩ := List.mem_map.1 hmem
    obtain ⟨n', rfl, hn'⟩ := htail.exists_entry he
    obtain rfl : n' = n := Name.ext (Item.text.inj heq)
    omega

/-- Every name that is used has an entry. -/
theorem Tallies.mem (h : m.Tallies f) {n : Name} (hn : 0 < f n) : entry n (f n) ∈ m := by
  induction h with
  | nil => exact absurd hn (Nat.lt_irrefl 0)
  | @cons n' k m f _ _ _ ih =>
    by_cases heq : n = n'
    · subst heq
      rw [update_self]
      exact List.mem_cons_self
    · rw [update_of_ne heq] at hn ⊢
      exact List.mem_cons_of_mem _ (ih hn)

/-- **Tallies of the same numbers** have the same entries, but for their order. -/
theorem Tallies.perm {m' : Usage} (h : m.Tallies f) (h' : m'.Tallies f) : m.Perm m' := by
  have hnodup : ∀ {m : Usage}, m.Tallies f → m.Nodup := fun h => List.Nodup.of_map Prod.fst h.nodup
  refine (List.perm_ext_iff_of_nodup (hnodup h) (hnodup h')).2 fun e => ⟨?_, ?_⟩
  · intro he
    obtain ⟨n, rfl, hn⟩ := h.exists_entry he
    exact h'.mem hn
  · intro he
    obtain ⟨n, rfl, hn⟩ := h'.exists_entry he
    exact h.mem hn

/-- Where nothing is used, there is no entry. -/
theorem Tallies.eq_nil (h : m.Tallies fun _ => 0) : m = [] := by
  refine List.eq_nil_iff_forall_not_mem.2 fun e he => ?_
  obtain ⟨n, -, hn⟩ := h.exists_entry he
  exact Nat.lt_irrefl 0 hn

/-- **A tally tells the number of uses of any name.** -/
theorem Tallies.count (h : m.Tallies f) (n : Name) :
    m.count s (.text n.text) = .scalar (.int (f n)) := by
  induction h with
  | nil => rfl
  | @cons n' k m f _ _ _ ih =>
    rw [Usage.count, Store.valueAt, List.find?_cons, entry, Store.sameKey_text]
    by_cases heq : n' = n
    · subst heq
      simp
    · have hkey : (n'.text == n.text) = false := by simpa using fun h => heq (Name.ext h)
      rw [hkey, update_of_ne (Ne.symm heq), ← ih]
      rfl

/-- A map is the tally of one row of numbers. -/
theorem Tallies.unique {g : Name → Nat} (h : m.Tallies f) (h' : m.Tallies g) : f = g := by
  funext n
  have hcount := (h.count (s := .initial) n).symm.trans (h'.count n)
  exact Int.ofNat.inj (Scalar.int.inj (Item.scalar.inj hcount))

/-- The number of uses of one name is put in its place. -/
theorem Tallies.put (h : m.Tallies f) (n : Name) {k : Nat} (hk : 0 < k) :
    (m.put s (.text n.text) (.scalar (.int k))).Tallies (update f n k) := by
  induction h with
  | nil => exact .cons rfl hk .nil
  | @cons n' k' m f hn' hk' hm ih =>
    rw [Usage.put, entry, Store.sameKey_text]
    by_cases heq : n' = n
    · subst heq
      simp only [beq_self_eq_true, if_true, update_idem]
      exact .cons hn' hk hm
    · have hkey : (n'.text == n.text) = false := by simpa using fun h => heq (Name.ext h)
      simp only [hkey, Bool.false_eq_true, if_false]
      rw [update_comm heq]
      exact .cons (by rwa [update_of_ne heq]) hk' ih

end Usage

namespace Build

variable {σ : Session} {m uses : Usage} {f g : Name → Nat}

/-- One more count in a tally. -/
theorem addCount_of_tallies (h : m.Tallies f) (n : Name) {k : Nat} (hk : 0 < k) :
    ∃ m', addCount 1 m (Usage.entry n k) σ = .ok m' σ ∧ m'.Tallies (update f n (f n + k)) := by
  have htotal : m.total σ.store 1 (.text n.text) (.scalar (.int k)) = .ok (.whole (f n + k)) := by
    rw [Usage.total, Usage.countedAmount_int, h.count]
    simp [Amount.times, Amount.plus, Store.amount, bind, Except.bind]
  have hput := h.put (s := σ.store) n (k := f n + k) (by omega)
  refine ⟨_, ?_, hput⟩
  rw [addCount, Usage.entry, bind_of_ok (read_of_ok htotal)]
  rfl

/-- **The uses of one tally added to another** give the tally of the sums. -/
theorem foldlM_addCount_of_tallies (huses : uses.Tallies g) (h : m.Tallies f) :
    ∃ m', uses.foldlM (addCount 1) m σ = .ok m' σ ∧ m'.Tallies fun n => f n + g n := by
  induction huses generalizing m f with
  | nil => exact ⟨m, rfl, h⟩
  | @cons n k uses g hn hk _ ih =>
    obtain ⟨m₁, hadd, h₁⟩ := addCount_of_tallies (σ := σ) h n hk
    obtain ⟨m₂, hrest, h₂⟩ := ih h₁
    refine ⟨m₂, by rw [List.foldlM_cons, bind_of_ok hadd, hrest], ?_⟩
    have hsum : (fun x => update f n (f n + k) x + g x) = fun x => f x + update g n k x := by
      funext x
      by_cases hx : x = n
      · subst hx
        simp [hn]
      · simp [update_of_ne hx]
    rwa [hsum] at h₂

/-- **Uses that are a tally** can be added to a tally, and no object changes. -/
theorem addUses_of_tallies {v : Value} (hv : σ.store.usesOf v = .ok uses)
    (huses : uses.Tallies g) (h : m.Tallies f) :
    ∃ m', addUses m v σ = .ok m' σ ∧ m'.Tallies fun n => f n + g n := by
  obtain ⟨m', hadd, h'⟩ := foldlM_addCount_of_tallies (σ := σ) huses h
  exact ⟨m', by rw [addUses, bind_of_ok (read_of_ok hv), hadd], h'⟩

end Build

end Splice
