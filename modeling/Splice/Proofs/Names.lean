import Splice.Proofs.Folding.Names
import Splice.Proofs.History.Sound
import Splice.Proofs.Literal.Confined
/-!
# Names — where they are in a value

The names in a value are those that its tree holds at any depth, in order
(`Store.namesOf`). Data that has a literal holds none
(`Datum.names_of_encode`). In a sound store the names in a fragment are
those among its items (`Store.Sound.namesOf_of_holds`), and merging lists
of items in place leaves the names in every value as they are
(`Store.Sound.namesOf_rewrites`).
-/

namespace Splice

/-! ## Names in trees -/

namespace Datum

mutual

/-- The names in a tree, in order. -/
def names : Datum → List Name
  | .name n => [n]
  | .list ds => namesAmong ds
  | .tuple ds => namesAmong ds
  | .dict es => namesInEntries es
  | .fragment items used _ => names items ++ names used
  | .tracked members => namesAmong members
  | .scalar _ | .text _ | .foreign _ | .cycle _ | .deeper => []

/-- The names in trees in a row. -/
def namesAmong : List Datum → List Name
  | [] => []
  | d :: ds => names d ++ namesAmong ds

/-- The names in entries in a row, those in a key before those in its value. -/
def namesInEntries : List (Datum × Datum) → List Name
  | [] => []
  | (key, value) :: es => names key ++ names value ++ namesInEntries es

end

theorem namesAmong_eq (ds : List Datum) : namesAmong ds = ds.flatMap names := by
  induction ds with
  | nil => rfl
  | cons d ds ih => rw [namesAmong, ih, List.flatMap_cons]

theorem namesInEntries_eq (es : List (Datum × Datum)) :
    namesInEntries es = es.flatMap fun e => e.1.names ++ e.2.names := by
  induction es with
  | nil => rfl
  | cons e es ih =>
    obtain ⟨key, value⟩ := e
    rw [namesInEntries, ih, List.flatMap_cons]

/-- A key that can be written holds no name. -/
theorem names_of_keyText {d : Datum} {t : Text} (h : d.keyText = .ok t) : d.names = [] := by
  cases d with
  | scalar c => rfl
  | text u => rfl
  | _ => cases h

mutual

/-- What can be written holds no name. -/
theorem names_of_encodeTo {depth : Nat} {d : Datum} {t : Text} (h : d.encodeTo depth = .ok t) :
    d.names = [] := by
  match depth, d with
  | _, .scalar c => rfl
  | _, .text u => rfl
  | depth + 1, .list ds =>
    rw [encodeTo] at h
    obtain ⟨ts, hts, -⟩ := exists_of_bind_eq_ok h
    exact namesAmong_of_encodeItems hts
  | depth + 1, .tuple ds =>
    rw [encodeTo] at h
    obtain ⟨ts, hts, -⟩ := exists_of_bind_eq_ok h
    exact namesAmong_of_encodeItems hts
  | depth + 1, .dict es =>
    rw [encodeTo] at h
    obtain ⟨ts, hts, -⟩ := exists_of_bind_eq_ok h
    exact namesInEntries_of_encodeEntries hts

theorem namesAmong_of_encodeItems {depth : Nat} {ds : List Datum} {ts : List Text}
    (h : encodeItems depth ds = .ok ts) : namesAmong ds = [] := by
  match ds with
  | [] => rfl
  | d :: ds =>
    rw [encodeItems] at h
    obtain ⟨t, ht, h⟩ := exists_of_bind_eq_ok h
    obtain ⟨us, hus, -⟩ := exists_of_bind_eq_ok h
    rw [namesAmong, names_of_encodeTo ht, namesAmong_of_encodeItems hus, List.nil_append]

theorem namesInEntries_of_encodeEntries {depth : Nat} {es : List (Datum × Datum)}
    {ts : List Text} (h : encodeEntries depth es = .ok ts) : namesInEntries es = [] := by
  match es with
  | [] => rfl
  | (key, value) :: es =>
    rw [encodeEntries] at h
    obtain ⟨k, hk, h⟩ := exists_of_bind_eq_ok h
    obtain ⟨t, ht, h⟩ := exists_of_bind_eq_ok h
    obtain ⟨us, hus, -⟩ := exists_of_bind_eq_ok h
    rw [namesInEntries, names_of_keyText hk, names_of_encodeTo ht,
      namesInEntries_of_encodeEntries hus, List.nil_append, List.nil_append]

end

/-- **Data that has a literal holds no name.** -/
theorem names_of_encode {d : Datum} {t : Text} (h : d.encode = .ok t) : d.names = [] := by
  obtain ⟨u, hu, -⟩ := exists_of_encode h
  exact names_of_encodeTo hu

end Datum

/-! ## Names among items -/

section Items

variable {xs ys : List Value}

/-- **Merging keeps the names**, and their order. -/
theorem MergesTo.names (h : MergesTo xs ys) : Item.names ys = Item.names xs := by
  have hreach := h fun _ _ => .ok []
  clear h
  induction hreach with
  | refl => rfl
  | tail _ hstep ih => rw [hstep.names, ih]

/-- **Other names fold alike.** -/
theorem FoldsTo.rename (h : FoldsTo xs ys) (f : Name → Name) :
    FoldsTo (xs.map (Item.rename f)) (ys.map (Item.rename f)) := by
  intro print
  obtain ⟨hfailure, rfl⟩ := h fun zs => print (zs.map (Item.rename f))
  rw [fold_rename]
  exact ⟨hfailure, rfl⟩

end Items

/-! ## Names in values -/

namespace Store

/-- The names in a value, at any depth, in order. -/
def namesOf (s : Store) (v : Value) : List Name := (s.datum v).names

variable {s s' : Store} {hand : List Value} {v : Value} {xs : List Value} {fuel : Nat}
  {path : List Ref}

theorem names_unfold_of_isBare (h : v.IsBare) : (s.unfold fuel path v).names = Item.names [v] := by
  cases v with
  | object r => exact absurd rfl (h r)
  | _ =>
    rw [unfold, Datum.names]
    rfl

/-- The names in a row of bare items are those among the items. -/
theorem namesAmong_unfold_of_isBare (h : ∀ x ∈ xs, x.IsBare) :
    Datum.namesAmong (xs.map (s.unfold fuel path)) = Item.names xs := by
  induction xs with
  | nil => rfl
  | cons x xs ih =>
    obtain ⟨hx, hxs⟩ := List.forall_mem_cons.1 h
    rw [List.map_cons, Datum.namesAmong, names_unfold_of_isBare hx, ih hxs, ← Item.names_cons]

theorem names_back (s : Store) (r : Ref) : (s.back r).names = [] := by
  rw [back, Datum.names]

/-- A tally holds no names, its keys being texts. -/
theorem Tallied.names_unfold {used : Value} {f : Name → Nat} (h : s.Tallied used f) (fuel : Nat)
    (path : List Ref) : (s.unfold fuel path used).names = [] := by
  cases h with
  | none => exact names_unfold_of_isBare (Item.isBare_scalar _)
  | @map u m f hu hm =>
    cases fuel with
    | zero => rfl
    | succ fuel =>
      rw [unfold]
      split
      · exact s.names_back u
      · rw [hu, Datum.names, Datum.namesInEntries_eq, List.flatMap_map]
        refine List.flatMap_eq_nil_iff.2 fun e he => ?_
        obtain ⟨n, rfl, -⟩ := hm.exists_entry he
        rw [Usage.entry, names_unfold_of_isBare (Item.isBare_text _),
          names_unfold_of_isBare (Item.isBare_scalar _)]
        rfl

/-- The names below a list of bare items are those among the items, unless
the list is met again there. -/
theorem names_unfold_list {q : Ref} (hq : s.get q = .list xs) (hbare : ∀ x ∈ xs, x.IsBare)
    (hpath : q ∉ path) : (s.unfold (fuel + 1) path (.object q)).names = Item.names xs := by
  rw [unfold, if_neg hpath, hq, Datum.names, namesAmong_unfold_of_isBare hbare]

namespace Sound

/-- **The names in a fragment** are those among its items. -/
theorem namesOf_of_holds {e : Bool} (h : s.Sound hand) (hv : s.Holds v xs e) :
    s.namesOf v = Item.names xs := by
  obtain @⟨r, q, used, _, _, hr, hq, -⟩ := hv
  obtain ⟨_, _, hitems, hq', hbare, htallied⟩ := h.fragment hr
  cases hitems
  cases hq.symm.trans hq'
  have hne : q ∉ [r] := by
    rw [List.mem_singleton]
    rintro rfl
    cases hq.symm.trans hr
  show (s.unfold (998 + 2) [] (.object r)).names = _
  rw [unfold, if_neg List.not_mem_nil, hr, Datum.names, names_unfold_list hq hbare hne,
    htallied.names_unfold, List.append_nil]

/-- Merging lists of items leaves the names in every tree as they are. -/
theorem names_unfold_rewrites (h : s.Sound hand) (hw : Rewrites MergesTo s.IsItems s s')
    (fuel : Nat) (path : List Ref) (v : Value) :
    (s'.unfold fuel path v).names = (s.unfold fuel path v).names := by
  induction fuel generalizing path v with
  | zero => cases v <;> rfl
  | succ fuel ih =>
    cases v with
    | object r =>
      have hrow : ∀ xs : List Value, Datum.namesAmong (xs.map (s'.unfold fuel (r :: path))) =
          Datum.namesAmong (xs.map (s.unfold fuel (r :: path))) := by
        intro xs
        simp only [Datum.namesAmong_eq, List.flatMap_map, ih]
      by_cases hpath : r ∈ path
      · rw [unfold, unfold, if_pos hpath, if_pos hpath, names_back, names_back]
      · by_cases hitems : s.IsItems r
        · -- The items that are merged are bare, and what they are merged into is as well.
          obtain ⟨r', used, e, hr'⟩ := hitems
          obtain ⟨_, xs, heq, hxs, hbare, -⟩ := h.fragment hr'
          cases heq
          obtain ⟨ys, hys, hmerges⟩ := hw.get_list hxs
          rw [names_unfold_list hxs hbare hpath,
            names_unfold_list hys (hmerges.isBare hbare) hpath, hmerges.names]
        · rw [unfold, unfold, if_neg hpath, if_neg hpath, hw.kept hitems]
          cases s.get r with
          | list xs => exact hrow xs
          | tuple xs => exact hrow xs
          | dict es =>
            simp only [Datum.names, Datum.namesInEntries_eq, List.flatMap_map, ih]
          | fragment items used e => simp only [Datum.names, ih]
          | tracked used text? => exact hrow (used :: text?.toList)
          | foreign kind text? => rfl
    | _ => rfl

/-- **Merging lists of items leaves the names in every value as they are.** -/
theorem namesOf_rewrites (h : s.Sound hand) (hw : Rewrites MergesTo s.IsItems s s') (v : Value) :
    s'.namesOf v = s.namesOf v :=
  h.names_unfold_rewrites hw Datum.reach [] v

end Sound

end Store

end Splice
