import Splice.Proofs.Fragment
import Splice.Proofs.Store.Reach
import Splice.Proofs.Store.Rewrite
import Splice.Proofs.Usage.Tally
/-!
# Histories — what stays true of a store

A fragment owns its list of items and its usage map (`Store.Owns`). A
store is sound (`Store.Sound`) if no two fragments own the same object,
if the usage map of each fragment is the tally of its items, and if none
of the values at hand, those that may be passed to an operation, is owned.
So what is written to the list of one fragment cannot be seen in another
one, in its counts, or in data.

A sound store stays sound when lists of items are merged in place
(`Sound.rewrites`), when data is made (`Sound.push`), and when a fragment
is put together from new objects (`Sound.yields`). This is all that the
operations do to it.
-/

namespace Splice

open Folded

namespace Store

/-! ## Owned objects -/

/-- The fragment keeps its items or its counts in the object. -/
inductive Owns (s : Store) (r : Ref) : Ref → Prop
  /-- The list of items. -/
  | items {q : Ref} {used : Value} {e : Bool} : s.get r = .fragment (.object q) used e → Owns s r q
  /-- The usage map. -/
  | used {items : Value} {u : Ref} {e : Bool} : s.get r = .fragment items (.object u) e → Owns s r u

/-- The list of items of some fragment. -/
def IsItems (s : Store) (q : Ref) : Prop :=
  ∃ r used e, s.get r = .fragment (.object q) used e

/-- The value stands for a tally: a map that is one, or no map if there is
nothing to count. -/
inductive Tallied (s : Store) : Value → (Name → Nat) → Prop
  /-- No map. -/
  | none : Tallied s (.scalar .null) fun _ => 0
  /-- A map. -/
  | map {u : Ref} {m : Usage} {f : Name → Nat} : s.get u = .dict m → m.Tallies f →
      Tallied s (.object u) f

/-- A store in which fragments are apart from each other and from the
values at hand. -/
structure Sound (s : Store) (hand : List Value) : Prop where
  /-- A fragment holds bare items and counts the names among them. -/
  fragment : ∀ {r items used e}, s.get r = .fragment items used e → ∃ q xs, items = .object q ∧
    s.get q = .list xs ∧ (∀ x ∈ xs, x.IsBare) ∧ s.Tallied used (namesIn xs)
  /-- No object is owned by two fragments. -/
  apart : ∀ {r r' q}, s.Owns r q → s.Owns r' q → r = r'
  /-- The shared empty fragment holds one empty text. -/
  blank : s.get nilRef = .fragment (.object nilItems) (.scalar .null) false ∧
    s.get nilItems = .list [.text []]
  /-- A value at hand stands for an object that no fragment owns. -/
  free : ∀ {r}, .object r ∈ hand → s.Live r ∧ ∀ r', ¬ s.Owns r' r

variable {s s' : Store} {hand : List Value} {r q u : Ref} {items used : Value} {e : Bool}
  {xs : List Value} {m : Usage} {f : Name → Nat}

theorem Owns.exists_fragment (h : s.Owns r q) :
    ∃ items used e, s.get r = .fragment items used e := by
  cases h with
  | items h => exact ⟨_, _, _, h⟩
  | used h => exact ⟨_, _, _, h⟩

/-- A fragment owns what its object refers to. -/
theorem owns_iff (hr : s.get r = .fragment items used e) :
    s.Owns r q ↔ items = .object q ∨ used = .object q := by
  constructor
  · rintro (h | h)
    · cases hr.symm.trans h
      exact .inl rfl
    · cases hr.symm.trans h
      exact .inr rfl
  · rintro (rfl | rfl)
    · exact .items hr
    · exact .used hr

/-- Ownership is a matter of the fragment alone. -/
theorem Owns.of_get (h : s.Owns r q) (hr : s'.get r = s.get r) : s'.Owns r q := by
  cases h with
  | items h => exact .items (hr.trans h)
  | used h => exact .used (hr.trans h)

/-- Data owns nothing. -/
theorem owns_push {o : Object} (ho : o.isFragment = false) :
    (s.push o).Owns r q ↔ s.Owns r q := by
  constructor
  · intro howns
    obtain ⟨items, used, e, hr⟩ := howns.exists_fragment
    refine howns.of_get ?_
    rw [get_push] at hr ⊢
    split at hr
    · rw [hr] at ho
      cases ho
    · rw [if_neg ‹_›]
  · intro howns
    obtain ⟨items, used, e, hr⟩ := howns.exists_fragment
    exact howns.of_get (get_push_live (live_of_fragment hr))

theorem Tallied.kept (h : s.Tallied used f)
    (hkept : ∀ {u m}, s.get u = .dict m → s'.get u = .dict m) : s'.Tallied used f := by
  cases h with
  | none => exact .none
  | map hu hm => exact .map (hkept hu) hm

theorem Tallied.counts (h : s.Tallied used f) : s.Counts used := by
  cases h with
  | none => exact .none
  | map hu hm => exact .map hu hm.isWhole

/-- What is counted in a tally. -/
theorem Tallied.countsIn (h : s.Tallied used f) :
    ∃ m : Usage, s.countsIn used = .ok m ∧
      (used = .scalar .null ∧ m = [] ∨ ∃ u, used = .object u ∧ s.get u = .dict m) ∧
      m.Tallies f := by
  cases h with
  | none => exact ⟨[], rfl, .inl ⟨rfl, rfl⟩, .nil⟩
  | @map u m f hu hm => exact ⟨m, Build.countsIn_of_get hu, .inr ⟨u, rfl, hu⟩, hm⟩

namespace Sound

/-- What is owned is a list or a map. -/
theorem get_of_owns (h : s.Sound hand) (ho : s.Owns r q) :
    (∃ xs, s.get q = .list xs) ∨ ∃ m, s.get q = .dict m := by
  cases ho with
  | items hr =>
    obtain ⟨_, xs, hitems, hq, -⟩ := h.fragment hr
    cases hitems
    exact .inl ⟨xs, hq⟩
  | used hr =>
    obtain ⟨_, _, -, -, -, hused⟩ := h.fragment hr
    cases hused with
    | map hu _ => exact .inr ⟨_, hu⟩

theorem live_of_owns (h : s.Sound hand) (ho : s.Owns r q) : s.Live q := by
  rcases h.get_of_owns ho with ⟨xs, hq⟩ | ⟨m, hq⟩
  · exact live_of_list hq
  · exact live_of_dict hq

theorem exists_list (h : s.Sound hand) (hq : s.IsItems q) : ∃ xs, s.get q = .list xs := by
  obtain ⟨r, used, e, hr⟩ := hq
  obtain ⟨_, xs, hitems, hq, -⟩ := h.fragment hr
  cases hitems
  exact ⟨xs, hq⟩

/-- A fragment can be read as one. -/
theorem exists_holds (h : s.Sound hand) (hr : s.get r = .fragment items used e) :
    ∃ xs, s.Holds (.object r) xs e := by
  obtain ⟨q, xs, rfl, hq, -, hused⟩ := h.fragment hr
  exact ⟨xs, .fragment hr hq hused.counts⟩

/-- A code value is a name or a fragment that can be read as one. -/
theorem name_or_holds {v : Value} (h : s.Sound hand) (hv : s.isCode v = true) :
    (∃ n, v = .name n) ∨ ∃ xs e, s.Holds v xs e := by
  unfold isCode at hv
  split at hv
  · exact .inl ⟨_, rfl⟩
  · split at hv
    · rename_i hr
      obtain ⟨xs, hxs⟩ := h.exists_holds hr
      exact .inr ⟨xs, _, hxs⟩
    · cases hv
  · cases hv

/-- Fewer values at hand. -/
theorem mono (h : s.Sound hand) {hand' : List Value}
    (hsub : ∀ r, .object r ∈ hand' → .object r ∈ hand) : s.Sound hand' :=
  ⟨h.fragment, h.apart, h.blank, fun hr => h.free (hsub _ hr)⟩

/-! ## New objects -/

section Push

variable {o : Object}

/-- **Data can be made** at any time. -/
theorem push (h : s.Sound hand) (ho : o.isFragment = false) :
    (s.push o).Sound (.object s.next :: hand) where
  fragment := by
    intro r items used e hr
    rw [get_push] at hr
    split at hr
    · rw [hr] at ho
      cases ho
    · obtain ⟨q, xs, rfl, hq, hbare, hused⟩ := h.fragment hr
      exact ⟨q, xs, rfl, (s.grows_push o).get hq nofun, hbare,
        hused.kept fun hu => (s.grows_push o).get hu nofun⟩
  apart := by
    intro r r' q hr hr'
    exact h.apart ((owns_push ho).1 hr) ((owns_push ho).1 hr')
  blank := ⟨(s.grows_push o).get h.blank.1 nofun, (s.grows_push o).get h.blank.2 nofun⟩
  free := by
    intro r hr
    rcases List.mem_cons.1 hr with hr | hr
    · cases hr
      exact ⟨live_next_push, fun r' howns =>
        Nat.lt_irrefl _ (h.live_of_owns ((owns_push ho).1 howns))⟩
    · exact ⟨live_push (h.free hr).1, fun r' howns =>
        (h.free hr).2 r' ((owns_push ho).1 howns)⟩

/-- **A fragment can be made** of objects that no fragment owns and that
are not at hand. -/
theorem push_fragment (h : s.Sound hand) (hq : s.get q = .list xs) (hbare : ∀ x ∈ xs, x.IsBare)
    (hused : s.Tallied used (namesIn xs))
    (hfree : ∀ p, .object q = (.object p : Value) ∨ used = .object p →
      .object p ∉ hand ∧ ∀ r, ¬ s.Owns r p) :
    (s.push (.fragment (.object q) used e)).Sound (.object s.next :: hand) := by
  let o : Object := .fragment (.object q) used e
  have hgrows : s.Grows (s.push o) := s.grows_push o
  -- The new fragment owns its list and its map, and the others what they did.
  have howns : ∀ {r p}, (s.push o).Owns r p →
      s.Owns r p ∨ r = s.next ∧ (.object q = (.object p : Value) ∨ used = .object p) := by
    intro r p hr
    by_cases hnext : r = s.next
    · subst hnext
      exact .inr ⟨rfl, (owns_iff get_push_next).1 hr⟩
    · exact .inl (hr.of_get (by rw [get_push, if_neg hnext]))
  have hlive : ∀ p, .object q = (.object p : Value) ∨ used = .object p → s.Live p := by
    rintro p (hp | rfl)
    · cases hp
      exact live_of_list hq
    · cases hused with
      | map hu _ => exact live_of_dict hu
  constructor
  · intro r items used' e' hr
    rw [get_push] at hr
    split at hr
    · cases hr
      exact ⟨q, xs, rfl, hgrows.get hq nofun, hbare, hused.kept fun hu => hgrows.get hu nofun⟩
    · obtain ⟨q', xs', rfl, hq', hbare', hused'⟩ := h.fragment hr
      exact ⟨q', xs', rfl, hgrows.get hq' nofun, hbare',
        hused'.kept fun hu => hgrows.get hu nofun⟩
  · intro r r' p hr hr'
    rcases howns hr with hr | ⟨rfl, hp⟩ <;> rcases howns hr' with hr' | ⟨rfl, hp'⟩
    · exact h.apart hr hr'
    · exact absurd hr ((hfree p hp').2 r)
    · exact absurd hr' ((hfree p hp).2 r')
    · rfl
  · exact ⟨hgrows.get h.blank.1 nofun, hgrows.get h.blank.2 nofun⟩
  · intro p hp
    rcases List.mem_cons.1 hp with hp | hp
    · cases hp
      refine ⟨live_next_push, fun r hr => ?_⟩
      rcases howns hr with hr | ⟨-, hr⟩
      · exact Nat.lt_irrefl _ (h.live_of_owns hr)
      · exact Nat.lt_irrefl _ (hlive _ hr)
    · refine ⟨live_push (h.free hp).1, fun r hr => ?_⟩
      rcases howns hr with hr | ⟨-, hr⟩
      · exact (h.free hp).2 r hr
      · exact (hfree p hr).1 hp

end Push

/-- At the start there is nothing but the shared empty fragment. -/
theorem initial : Store.initial.Sound [nil] := by
  -- Address 0 is the fragment, address 1 its list, and there is no other.
  have hfragment : ∀ {r items used e}, Store.initial.get r = .fragment items used e →
      r = nilRef ∧ items = .object nilItems ∧ used = .scalar .null := by
    rintro ⟨_ | _ | n⟩ items used e hr
    · cases hr
      exact ⟨rfl, rfl, rfl⟩
    · cases hr
    · have hbeyond : Store.initial.get ⟨n + 2⟩ = .foreign .object none := rfl
      cases hbeyond.symm.trans hr
  have howns : ∀ {r q}, Store.initial.Owns r q → r = nilRef ∧ q = nilItems := by
    rintro r q (hr | hr)
    · obtain ⟨hnil, hitems, -⟩ := hfragment hr
      cases hitems
      exact ⟨hnil, rfl⟩
    · obtain ⟨-, -, hused⟩ := hfragment hr
      cases hused
  constructor
  · intro r items used e hr
    obtain ⟨-, rfl, rfl⟩ := hfragment hr
    exact ⟨nilItems, [.text []], rfl, rfl, by simp [Item.isBare_text], .none⟩
  · intro r r' q hr hr'
    rw [(howns hr).1, (howns hr').1]
  · exact ⟨rfl, rfl⟩
  · intro r hr
    obtain rfl : r = nilRef := by simpa [nil] using hr
    exact ⟨Nat.zero_lt_two, fun r' hr' => absurd (howns hr').2 (by decide)⟩

/-! ## Lists merged in place -/

section Rewrites

variable {L : Ref → Prop} (h : s.Sound hand) (hw : Rewrites MergesTo L s s')
  (hL : ∀ q, L q → s.IsItems q)

include h hw hL

theorem get_fragment :
    s'.get r = .fragment items used e ↔ s.get r = .fragment items used e :=
  hw.get_iff (fun q hq => h.exists_list (hL q hq)) nofun

theorem get_dict : s'.get u = .dict m ↔ s.get u = .dict m :=
  hw.get_iff (fun q hq => h.exists_list (hL q hq)) nofun

theorem owns_rewrites : s'.Owns r q ↔ s.Owns r q := by
  constructor
  · rintro (hr | hr)
    · exact .items ((h.get_fragment hw hL).1 hr)
    · exact .used ((h.get_fragment hw hL).1 hr)
  · rintro (hr | hr)
    · exact .items ((h.get_fragment hw hL).2 hr)
    · exact .used ((h.get_fragment hw hL).2 hr)

/-- **A store stays sound when lists of items are merged in place.** -/
theorem rewrites : s'.Sound hand where
  fragment := by
    intro r items used e hr
    obtain ⟨q, xs, rfl, hq, hbare, hused⟩ := h.fragment ((h.get_fragment hw hL).1 hr)
    obtain ⟨ys, hys, hmerges⟩ := hw.get_list hq
    have hnames : namesIn ys = namesIn xs := funext hmerges.count_name
    refine ⟨q, ys, rfl, hys, hmerges.isBare hbare, ?_⟩
    rw [hnames]
    exact hused.kept fun hu => (h.get_dict hw hL).2 hu
  apart := by
    intro r r' q hr hr'
    exact h.apart ((h.owns_rewrites hw hL).1 hr) ((h.owns_rewrites hw hL).1 hr')
  blank := by
    obtain ⟨ys, hys, hmerges⟩ := hw.get_list h.blank.2
    obtain rfl := hmerges.eq_of_quiet (quiet_of_length_le (by simp))
    exact ⟨(h.get_fragment hw hL).2 h.blank.1, hys⟩
  free := by
    intro r hr
    exact ⟨hw.live.2 (h.free hr).1, fun r' howns =>
      (h.free hr).2 r' ((h.owns_rewrites hw hL).1 howns)⟩

/-- Which lists are those of fragments is a matter of the fragments. -/
theorem isItems_rewrites : s'.IsItems q ↔ s.IsItems q := by
  simp only [IsItems, h.get_fragment hw hL]

/-- What a fragment holds then has been merged from what it held. -/
theorem holds_rewrites {v : Value} {ys : List Value} (hv : s'.Holds v ys e) :
    ∃ xs, s.Holds v xs e ∧ MergesTo xs ys := by
  obtain @⟨r, q, used, _, _, hr, hq, -⟩ := hv
  have hr' : s.get r = .fragment (.object q) used e := (h.get_fragment hw hL).1 hr
  obtain ⟨_, xs, hitems, hxs, -, hused⟩ := h.fragment hr'
  cases hitems
  obtain ⟨zs, hzs, hmerges⟩ := hw.get_list hxs
  cases hq.symm.trans hzs
  exact ⟨xs, .fragment hr' hxs hused.counts, hmerges⟩

/-- What is at hand is as it was. -/
theorem get_hand (hr : .object r ∈ hand) : s'.get r = s.get r := by
  refine hw.kept fun hq => ?_
  obtain ⟨r', used, e, hr'⟩ := hL r hq
  exact (h.free hr).2 r' (.items hr')

end Rewrites

end Sound

/-- A value that can be passed to an operation: one that refers to no
object, or one at hand. -/
def IsGiven (hand : List Value) (v : Value) : Prop := ∀ r, v = .object r → v ∈ hand

/-- What an operation that succeeds answers and adds to the store: a value
that it was given, or a new fragment. -/
inductive Yields (hand : List Value) (s : Store) : Value → Store → Prop
  /-- Nothing new. -/
  | given {v : Value} : IsGiven hand v → Yields hand s v s
  /-- A fragment of one text. -/
  | text (t : Text) : Yields hand s (.object (s.push (.list [.text t])).next)
      ((s.push (.list [.text t])).push (.fragment (.object s.next) (.scalar .null) false))
  /-- A fragment of items that are counted. -/
  | assembled {xs : List Value} {m : Usage} (e : Bool) : (∀ x ∈ xs, x.IsBare) →
      m.Tallies (namesIn xs) →
      Yields hand s (.object ((s.push (.list xs)).push (.dict m)).next)
        (((s.push (.list xs)).push (.dict m)).push
          (.fragment (.object s.next) (.object (s.push (.list xs)).next) e))

variable {v : Value}

theorem Yields.grows (h : s.Yields hand v s') : s.Grows s' := by
  cases h with
  | given _ => exact .refl _
  | text t => exact (s.grows_push _).trans (grows_push _ _)
  | assembled e _ _ => exact ((s.grows_push _).trans (grows_push _ _)).trans (grows_push _ _)

/-- What is at hand is live, so no new object is. -/
theorem Sound.not_mem_next (h : s.Sound hand) : .object s.next ∉ hand := fun hmem =>
  Nat.lt_irrefl _ (h.free hmem).1

/-- **A store stays sound when an operation answers**, and the answer is at
hand. -/
theorem Sound.yields (h : s.Sound hand) (hy : s.Yields hand v s') : s'.Sound (v :: hand) := by
  cases hy with
  | given hv =>
    refine h.mono fun r hr => ?_
    rcases List.mem_cons.1 hr with hr | hr
    · exact hr ▸ hv r hr.symm
    · exact hr
  | text t =>
    have hlist := h.push (o := .list [.text t]) rfl
    refine (hlist.mono fun r hr => List.mem_cons_of_mem _ hr).push_fragment get_push_next
      (List.forall_mem_singleton.2 (Item.isBare_text t)) ?_ ?_
    · rw [namesIn_of_forall_ne (by simp)]
      exact .none
    · rintro p (hp | hp) <;> cases hp
      exact ⟨h.not_mem_next, (hlist.free List.mem_cons_self).2⟩
  | @assembled xs m e hbare hm =>
    have hlist := h.push (o := .list xs) rfl
    have hdict := hlist.push (o := .dict m) rfl
    have hnext : (s.push (.list xs)).Live s.next := live_next_push
    refine (hdict.mono fun r hr => List.mem_cons_of_mem _ (List.mem_cons_of_mem _ hr)).push_fragment
      ((get_push_live hnext).trans get_push_next) hbare (.map get_push_next hm) ?_
    rintro p (hp | hp) <;> cases hp
    · exact ⟨h.not_mem_next, (hdict.free (List.mem_cons_of_mem _ List.mem_cons_self)).2⟩
    · exact ⟨fun hmem => hlist.not_mem_next (List.mem_cons_of_mem _ hmem),
        (hdict.free List.mem_cons_self).2⟩

end Store

end Splice
