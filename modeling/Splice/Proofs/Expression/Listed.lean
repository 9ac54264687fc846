import Splice.Proofs.Expression
import Splice.Proofs.Literal
/-!
# Templates — what a list argument is joined to

A list argument of a string expression stands for an array of the
generated program (`Store.StandsFor`), and the array has a text there: its
elements joined by commas, null as nothing, and an array among them by
its own join (`JavaScript.Element.join`). An element that is no list
prints as that text has it (`Store.StandsFor.elementText`). A list among
the elements is not joined, though, but shown as messages show it, with
brackets around it, blanks behind its commas and its texts quoted. That
is always longer than its join (`Store.StandsFor.length_elementText`), so
the argument is the text of the array exactly if none of its elements is a
list (`Build.embeds_join_iff`).
-/

namespace Splice

/-! ## Arrays of the generated program -/

namespace JavaScript

/-- An element of an array, as far as lists of data give any. A number is
a whole one, written with all its digits. -/
inductive Element
  | null
  | bool (b : Bool)
  | int (n : Int)
  | text (t : Text)
  | array (elements : List Element)

namespace Element

mutual

/-- What an element gives to the join of the array that it is in: null
nothing, and an array its own join. -/
def joined : Element → Text
  | .null => []
  | .bool b => Text.ofString (if b then "true" else "false")
  | .int n => Text.ofInt n
  | .text t => t
  | .array es => Text.join [.char ','] (allJoined es)

/-- What the elements of an array give to its join. -/
def allJoined : List Element → List Text
  | [] => []
  | e :: es => joined e :: allJoined es

end

/-- The text of an array: that of its elements, with commas between them. -/
def join (es : List Element) : Text := Text.join [.char ','] (es.map joined)

/-- Whether an element is an array itself. -/
def isArray : Element → Bool
  | .array _ => true
  | _ => false

theorem joined_array (es : List Element) : joined (.array es) = join es := by
  have hall : allJoined es = es.map joined := by
    induction es with
    | nil => rw [allJoined, List.map_nil]
    | cons e es ih => rw [allJoined, ih, List.map_cons]
  rw [joined, hall, join]

end Element

end JavaScript

open JavaScript

/-- A value stands for an element: nothing, truth values, whole numbers
that can be printed and texts for themselves, and a list or a tuple for
the array of what its elements stand for. -/
inductive Store.StandsFor (s : Store) : Value → Element → Prop
  | null : s.StandsFor (.scalar .null) .null
  | bool (b : Bool) : s.StandsFor (.scalar (.bool b)) (.bool b)
  | int {n : Int} (hn : isPrintableInt n = true) : s.StandsFor (.scalar (.int n)) (.int n)
  | text (t : Text) : s.StandsFor (.text t) (.text t)
  | array {r : Ref} {xs : List Value} {es : List Element}
    (hget : s.get r = .list xs ∨ s.get r = .tuple xs) (hlength : xs.length = es.length)
    (hitems : ∀ p ∈ xs.zip es, s.StandsFor p.1 p.2) : s.StandsFor (.object r) (.array es)

/-! ## Lengths of joins -/

/-- Two relations with the same row on one side relate the rows on the other. -/
theorem forall₂_of_forall₂ {α β γ : Type} {p : α → β → Prop} {q : α → γ → Prop} {r : β → γ → Prop}
    {xs : List α} {ys : List β} {zs : List γ} (hpq : ∀ x y z, p x y → q x z → r y z)
    (h : List.Forall₂ p xs ys) (h' : List.Forall₂ q xs zs) : List.Forall₂ r ys zs := by
  induction h generalizing zs with
  | nil =>
    cases h'
    exact .nil
  | cons hxy _ ih =>
    cases h' with
    | cons hxz hrest => exact .cons (hpq _ _ _ hxy hxz) (ih hrest)

namespace Text

variable {sep sep' : Text} {ts us : List Text}

/-- With texts that are no shorter and a separator that is no shorter, a
join is no shorter. -/
theorem length_join_le (hsep : sep.length ≤ sep'.length)
    (h : List.Forall₂ (fun t u => t.length ≤ u.length) ts us) :
    (join sep ts).length ≤ (join sep' us).length := by
  induction h with
  | nil => rfl
  | @cons t u ts us htu hrest ih =>
    cases hrest with
    | nil => exact htu
    | cons _ _ =>
      rw [join_cons_cons, join_cons_cons, List.length_append, List.length_append,
        List.length_append, List.length_append]
      omega

/-- With one text that is longer, it is longer. -/
theorem length_join_lt (h : List.Forall₂ (fun t u => t.length ≤ u.length) ts us)
    (hlt : ∃ p ∈ ts.zip us, p.1.length < p.2.length) :
    (join sep ts).length < (join sep us).length := by
  induction h with
  | nil => simp at hlt
  | @cons t u ts us htu hrest ih =>
    cases hrest with
    | nil => simpa using hlt
    | @cons t' u' ts us htu' hrest =>
      have hle : (join sep (t' :: ts)).length ≤ (join sep (u' :: us)).length :=
        length_join_le le_rfl (.cons htu' hrest)
      rw [join_cons_cons, join_cons_cons, List.length_append, List.length_append,
        List.length_append, List.length_append]
      rw [List.zip_cons_cons, List.exists_mem_cons_iff] at hlt
      rcases hlt with hhead | hlater
      · simp only at hhead
        omega
      · have := ih hlater
        omega

theorem length_shown (mark : Char) (c : CodePoint) : 1 ≤ (c.shown mark).length := by
  have hofString (a b : Char) (u : Text) : 1 ≤ (ofString (String.ofList [a, b]) ++ u).length := by
    simp [ofString]
  unfold CodePoint.shown
  split_ifs
  · simp
  · decide
  · decide
  · decide
  · simp
  · exact hofString _ _ _
  · exact hofString _ _ _
  · exact hofString _ _ _

/-- A text that is shown has quotes around it. -/
theorem length_quoted (t : Text) : t.length + 2 ≤ t.quoted.length := by
  have hflat (mark : Char) : t.length ≤ (t.flatMap (CodePoint.shown mark)).length := by
    induction t with
    | nil => simp
    | cons c t ih =>
      have := length_shown mark c
      rw [List.flatMap_cons, List.length_append, List.length_cons]
      omega
  have := hflat t.quoteMark
  simp only [quoted, List.length_append, List.length_cons, List.length_nil]
  omega

end Text

/-- A tuple that is shown has brackets around its elements. -/
theorem Datum.length_inTuple (ts : List Text) :
    (Text.join Datum.comma ts).length + 2 ≤ (inTuple ts).length := by
  unfold inTuple
  split
  · simp [Text.ofString]
  · simp

theorem Datum.displayItems_eq_ok {n : Nat} {ds : List Datum} {ts : List Text}
    (h : displayItems n ds = .ok ts) : List.Forall₂ (fun d t => d.displayTo n = .ok t) ds ts := by
  induction ds generalizing ts with
  | nil =>
    cases h
    exact .nil
  | cons d ds ih =>
    rw [displayItems] at h
    obtain ⟨t, ht, h⟩ := exists_of_bind_eq_ok h
    obtain ⟨us, hus, h⟩ := exists_of_bind_eq_ok h
    cases h
    exact .cons ht (ih hus)

namespace Store

variable {s : Store} {v : Value} {e f : Element}

/-! ## A list among the elements -/

/-- A value stands for one element at most. -/
theorem StandsFor.unique (h : s.StandsFor v e) (h' : s.StandsFor v f) : e = f := by
  induction h generalizing f with
  | null | bool b | int hn | text t =>
    cases h'
    rfl
  | @array r xs es hget hlength hitems ih =>
    cases h' with
    | @array _ ys fs hget' hlength' hitems' =>
      obtain rfl : xs = ys := by
        rcases hget with hget | hget <;> rcases hget' with hget' | hget' <;>
          cases hget.symm.trans hget' <;> rfl
      have hrow : List.Forall₂ s.StandsFor xs fs := List.forall₂_iff_zip.2 ⟨hlength', hitems' _⟩
      rw [eq_of_forall₂ (List.forall₂_iff_zip.2 ⟨hlength, fun hp _ => ih _ hp⟩) hrow]

/-- What the objects of a path stand for is greater than `e`, so nothing
that stands for `e` is one of them. -/
def Encloses (s : Store) (path : List Ref) (e : Element) : Prop :=
  ∀ r ∈ path, ∀ f, s.StandsFor (.object r) f → sizeOf e < sizeOf f

/-- The path goes on below an array, to its elements. -/
theorem Encloses.cons {path : List Ref} {r : Ref} {es : List Element}
    (hpath : s.Encloses path (.array es)) (h : s.StandsFor (.object r) (.array es)) (he : e ∈ es) :
    s.Encloses (r :: path) e := by
  have hlt : sizeOf e < sizeOf (Element.array es) := by
    have := List.sizeOf_lt_of_mem he
    rw [Element.array.sizeOf_spec]
    omega
  intro q hq f hf
  rcases List.mem_cons.1 hq with rfl | hq
  · rwa [← h.unique hf]
  · exact Nat.lt_trans hlt (hpath q hq f hf)

/-- **A value that is shown is no shorter** than what it gives to a join,
and a list has two brackets more. -/
theorem StandsFor.length_le (h : s.StandsFor v e) {fuel n : Nat} {path : List Ref} {t : Text}
    (hpath : s.Encloses path e) (ht : (s.unfold fuel path v).displayTo n = .ok t) :
    e.joined.length + (if e.isArray then 2 else 0) ≤ t.length := by
  -- The path stays above the elements, so no list is met again and shown by dots only.
  induction h generalizing fuel path n t with
  | null => exact Nat.zero_le _
  | bool b =>
    rw [unfold, Datum.displayTo] at ht
    cases b <;> cases ht <;> decide
  | int hn =>
    rw [unfold, Datum.displayTo, Scalar.display, if_pos hn] at ht
    cases ht
    rw [Element.joined]
    exact le_rfl
  | text u =>
    rw [unfold, Datum.displayTo] at ht
    cases ht
    have := u.length_quoted
    rw [Element.joined]
    simp only [Element.isArray, Bool.false_eq_true, if_false]
    omega
  | @array r xs es hget hlength hitems ih =>
    have hr : s.StandsFor (.object r) (.array es) := .array hget hlength hitems
    have hmem : r ∉ path := fun hmem => absurd (hpath r hmem _ hr) (Nat.lt_irrefl _)
    obtain _ | fuel := fuel
    · cases ht
    obtain _ | n := n
    · rw [unfold, if_neg hmem] at ht
      rcases hget with hget | hget <;> rw [hget] at ht <;> cases ht
    -- Each element is shown no shorter than it is joined.
    have hparts {parts : List Text}
        (h : Datum.displayItems n (xs.map (s.unfold fuel (r :: path))) = .ok parts) :
        (Element.join es).length ≤ (Text.join Datum.comma parts).length := by
      have hrow : List.Forall₂ (fun x e => ∀ t, (s.unfold fuel (r :: path) x).displayTo n = .ok t →
          e.joined.length ≤ t.length) xs es := by
        refine List.forall₂_iff_zip.2 ⟨hlength, fun hp t ht => ?_⟩
        exact Nat.le_trans (Nat.le_add_right _ _)
          (ih _ hp (hpath.cons hr (List.of_mem_zip hp).2) ht)
      have hshown := List.forall₂_map_left_iff.1 (Datum.displayItems_eq_ok h)
      refine Text.length_join_le (by decide) (List.forall₂_map_left_iff.2 ?_)
      exact forall₂_of_forall₂ (fun x e t hle ht => hle t ht) hrow hshown
    rw [unfold, if_neg hmem] at ht
    rw [Element.joined_array]
    simp only [Element.isArray, if_true]
    rcases hget with hget | hget
    · rw [hget] at ht
      simp only [Datum.displayTo] at ht
      obtain ⟨parts, hitems, ht⟩ := exists_of_bind_eq_ok ht
      cases ht
      have := hparts hitems
      simp only [List.cons_append, List.length_cons, List.length_append, List.length_nil]
      omega
    · rw [hget] at ht
      simp only [Datum.displayTo] at ht
      obtain ⟨parts, hitems, ht⟩ := exists_of_bind_eq_ok ht
      cases ht
      have := hparts hitems
      have := Datum.length_inTuple parts
      omega

/-- **An element that is no list** is written as the join has it. -/
theorem StandsFor.elementText (h : s.StandsFor v e) (hflat : e.isArray = false) :
    s.elementText v = .ok e.joined := by
  cases h with
  | null => rfl
  | bool b => cases b <;> rfl
  | int hn =>
    simp only [Store.elementText, render, Item.render, Scalar.render, if_pos hn, Element.joined]
  | text t => rfl
  | array => cases hflat

/-- Any other is written longer than that. -/
theorem StandsFor.length_elementText (h : s.StandsFor v e) {t : Text}
    (ht : s.elementText v = .ok t) :
    e.joined.length ≤ t.length ∧ (e.isArray = true → e.joined.length < t.length) := by
  cases h with
  | @array r xs es hget hlength hitems =>
    have hnone : s.Encloses [] (.array es) := fun r hr => absurd hr List.not_mem_nil
    have hshown : s.display (.object r) = .ok t := by
      rcases hget with hget | hget <;>
        simpa only [Store.elementText, render, Item.render, print, printWith, hget] using ht
    have hle := (StandsFor.array hget hlength hitems).length_le hnone hshown
    rw [Element.isArray, if_pos rfl] at hle
    exact ⟨by omega, fun _ => by omega⟩
  | null => exact ⟨Nat.zero_le _, fun h => absurd h Bool.false_ne_true⟩
  | bool b =>
    cases (StandsFor.elementText (.bool b) rfl).symm.trans ht
    exact ⟨le_rfl, fun h => absurd h Bool.false_ne_true⟩
  | int hn =>
    cases (StandsFor.elementText (.int hn) rfl).symm.trans ht
    exact ⟨le_rfl, fun h => absurd h Bool.false_ne_true⟩
  | text u =>
    cases (StandsFor.elementText (.text u) rfl).symm.trans ht
    exact ⟨le_rfl, fun h => absurd h Bool.false_ne_true⟩

/-- What the elements of a list are joined to. -/
theorem joinElements_eq_ok {xs : List Value} {t : Text} : s.joinElements xs = .ok t ↔
    ∃ ts, List.Forall₂ (fun x u => s.elementText x = .ok u) xs ts ∧
      t = Text.join [.char ','] ts := by
  have hrow (ts : List Text) : xs.mapM s.elementText = .ok ts ↔
      List.Forall₂ (fun x u => s.elementText x = .ok u) xs ts := by
    induction xs generalizing ts with
    | nil =>
      rw [List.forall₂_nil_left_iff]
      exact ⟨fun h => (Except.ok.inj h).symm, fun h => h ▸ rfl⟩
    | cons x xs ih =>
      rw [List.mapM_cons]
      constructor
      · intro h
        obtain ⟨u, hu, h⟩ := exists_of_bind_eq_ok h
        obtain ⟨us, hus, h⟩ := exists_of_bind_eq_ok h
        cases h
        exact .cons hu ((ih us).1 hus)
      · rintro (_ | ⟨hu, hus⟩)
        rw [hu, (ih _).2 hus]
        rfl
  rw [joinElements]
  constructor
  · intro h
    cases hts : xs.mapM s.elementText with
    | error e =>
      rw [hts] at h
      cases h
    | ok ts =>
      rw [hts] at h
      exact ⟨ts, (hrow ts).1 hts, (Except.ok.inj h).symm⟩
  · rintro ⟨ts, hts, rfl⟩
    rw [(hrow ts).2 hts]
    rfl

/-- **Elements are joined to the text of their array** exactly if none is a list. -/
theorem joinElements_eq_join_iff {xs : List Value} {es : List Element}
    (h : List.Forall₂ s.StandsFor xs es) :
    s.joinElements xs = .ok (Element.join es) ↔ ∀ e ∈ es, e.isArray = false := by
  constructor
  · intro hjoin e he
    by_contra harray
    obtain ⟨ts, hts, heq⟩ := joinElements_eq_ok.1 hjoin
    have hboth : List.Forall₂ (fun e t => e.joined.length ≤ t.length ∧
        (e.isArray = true → e.joined.length < t.length)) es ts :=
      forall₂_of_forall₂ (fun x e t hx ht => hx.length_elementText ht) h hts
    obtain ⟨t, ht⟩ : ∃ t, (e, t) ∈ es.zip ts := by
      obtain ⟨i, hi, rfl⟩ := List.getElem_of_mem he
      have hlength := hboth.length_eq
      exact ⟨ts[i], List.mem_iff_getElem.2 ⟨i, by simp; omega, List.getElem_zip⟩⟩
    have hlt : e.joined.length < t.length :=
      ((List.forall₂_iff_zip.1 hboth).2 ht).2 (Bool.eq_true_of_not_eq_false harray)
    have hlonger : (Element.join es).length < (Text.join [.char ','] ts).length := by
      refine Text.length_join_lt (List.forall₂_map_left_iff.2 (hboth.imp fun _ _ h => h.1)) ?_
      refine ⟨(e.joined, t), ?_, hlt⟩
      rw [List.zip_map_left]
      exact List.mem_map.2 ⟨(e, t), ht, rfl⟩
    rw [← heq] at hlonger
    exact Nat.lt_irrefl _ hlonger
  · intro hflat
    refine joinElements_eq_ok.2 ⟨es.map Element.joined, ?_, rfl⟩
    rw [List.forall₂_map_right_iff]
    refine List.forall₂_iff_zip.2 ⟨h.length_eq, fun hp => ?_⟩
    exact ((List.forall₂_iff_zip.1 h).2 hp).elementText (hflat _ (List.of_mem_zip hp).2)

end Store

/-- What stands for an array is a list or a tuple of what stands for its elements. -/
theorem Store.StandsFor.exists_items {s : Store} {v : Value} {es : List Element}
    (h : s.StandsFor v (.array es)) : ∃ r xs, v = .object r ∧
      (s.get r = .list xs ∨ s.get r = .tuple xs) ∧ List.Forall₂ s.StandsFor xs es := by
  cases h with
  | array hget hlength hitems =>
    exact ⟨_, _, rfl, hget, List.forall₂_iff_zip.2 ⟨hlength, hitems _⟩⟩

/-- A list that adds anything to a string expression has elements that can be joined. -/
theorem Store.Contributes.exists_joined {s : Store} {v : Value} {block xs : List Value}
    (h : s.Contributes v block) (hcode : s.isCode v = false) (hlisted : s.listed? v = some xs) :
    ∃ t, s.joinElements xs = .ok t := by
  cases h with
  | name n => cases hcode
  | scalar c => cases hlisted
  | literal _ hnone _ => cases hlisted.symm.trans hnone
  | listed hxs ht =>
    cases hlisted.symm.trans hxs
    exact ⟨_, ht⟩
  | fragment hholds => cases hcode.symm.trans hholds.isCode

namespace Build

variable {σ : Session} {segments : Segments} {v : Value} {es : List Element}

/-- **A list argument alone** in a string expression becomes the literal of
the text of its array exactly if none of its elements is a list or a
tuple. -/
theorem embeds_join_iff (hsegments : segments.Are σ.store [[], []])
    (hv : σ.store.StandsFor v (.array es)) :
    (∃ w τ, expression segments [v] σ = .ok w τ ∧
      τ.store.Holds w [.text (Element.join es).literal] true) ↔ ∀ e ∈ es, e.isArray = false := by
  obtain ⟨r, xs, rfl, hget, hrow⟩ := hv.exists_items
  have hlisted : σ.store.listed? (.object r) = some xs := by
    rcases hget with hget | hget <;> simp only [Store.listed?, hget]
  have hcode : σ.store.isCode (.object r) = false := by
    rcases hget with hget | hget <;> simp only [Store.isCode, hget]
  have hbuilt {t : Text} (ht : σ.store.joinElements xs = .ok t) :
      ∃ w τ, expression segments [.object r] σ = .ok w τ ∧
        τ.store.Holds w [.text t.literal] true := by
    have hblocks : σ.store.Blocks [.object r] [([.text t.literal], [])] :=
      .cons (.listed hlisted ht) .nil
    obtain ⟨w, τ, hrun, hholds, -⟩ := expression_of_contributes hsegments hblocks
    exact ⟨w, τ, hrun, hholds⟩
  rw [← Store.joinElements_eq_join_iff hrow]
  refine ⟨?_, hbuilt⟩
  rintro ⟨w, τ, hrun, hholds⟩
  obtain ⟨rest, -, hblocks⟩ := contributes_of_expression hsegments
    (List.forall_mem_singleton.2 fun h => absurd (hcode.symm.trans h) Bool.false_ne_true) hrun
  obtain ⟨block, hblock⟩ : ∃ block, σ.store.Contributes (.object r) block := by
    cases hblocks with
    | cons h _ => exact ⟨_, h⟩
  obtain ⟨t, ht⟩ := hblock.exists_joined hcode hlisted
  obtain ⟨w', τ', hrun', hholds'⟩ := hbuilt ht
  cases hrun.symm.trans hrun'
  have hliteral := hholds.unique hholds'
  obtain rfl : Element.join es = t := Text.literal_injective (by simpa using hliteral)
  exact ht

/-- A flat list with a missing element and with commas and quotes in its texts. -/
theorem embeds_join_iff_flat :
    let σ : Session := ⟨⟨#[.tuple [.scalar .null, .scalar (.bool true), .scalar (.int (-7)),
      .text "a,\"b\""]]⟩, []⟩
    let es : List Element := [.null, .bool true, .int (-7), .text "a,\"b\""]
    (Segments.Are σ.store [[], []] (.ofStrings ["", ""]) ∧
        σ.store.StandsFor (.object ⟨0⟩) (.array es)) ∧
      Element.join es = Text.ofString ",true,-7,a,\"b\"" ∧
      ∃ w τ, expression (.ofStrings ["", ""]) [.object ⟨0⟩] σ = .ok w τ ∧
        τ.store.Holds w [.text (Element.join es).literal] true := by
  intro σ es
  have hv : σ.store.StandsFor (.object ⟨0⟩) (.array es) := by
    refine .array (.inr rfl) rfl (List.forall_mem_cons.2 ⟨.null, ?_⟩)
    refine List.forall_mem_cons.2 ⟨.bool true, List.forall_mem_cons.2 ⟨.int ?_, ?_⟩⟩
    · exact isPrintableInt_of_lt (by decide)
    · exact List.forall_mem_singleton.2 (.text _)
  have hsegments : Segments.Are σ.store [[], []] (.ofStrings ["", ""]) := rfl
  exact ⟨⟨hsegments, hv⟩, by decide, (embeds_join_iff hsegments hv).2 (by decide)⟩

/-- A list in a list: instead of its join, the way in which messages show it. -/
theorem not_embeds_join_nested :
    let σ : Session := ⟨⟨#[.list [.scalar (.int 1), .scalar (.int 2)], .list [.object ⟨0⟩]]⟩, []⟩
    let es : List Element := [.array [.int 1, .int 2]]
    σ.store.StandsFor (.object ⟨1⟩) (.array es) ∧ Element.join es = Text.ofString "1,2" ∧
      ¬(∃ w τ, expression (.ofStrings ["", ""]) [.object ⟨1⟩] σ = .ok w τ ∧
        τ.store.Holds w [.text (Element.join es).literal] true) ∧
      ∃ w τ, expression (.ofStrings ["", ""]) [.object ⟨1⟩] σ = .ok w τ ∧
        τ.store.Holds w [.text (Text.literal "[1, 2]")] true := by
  intro σ es
  have hsmall {n : Int} (h : n.natAbs < 2 ^ 53) : σ.store.StandsFor (.scalar (.int n)) (.int n) :=
    .int (isPrintableInt_of_lt h)
  have hinner : σ.store.StandsFor (.object ⟨0⟩) (.array [.int 1, .int 2]) := by
    refine .array (.inl rfl) rfl (List.forall_mem_cons.2 ⟨hsmall (by decide), ?_⟩)
    exact List.forall_mem_singleton.2 (hsmall (by decide))
  have hv : σ.store.StandsFor (.object ⟨1⟩) (.array es) :=
    .array (.inl rfl) rfl (List.forall_mem_singleton.2 hinner)
  have hsegments : Segments.Are σ.store [[], []] (.ofStrings ["", ""]) := rfl
  have hjoined : σ.store.joinElements [.object ⟨0⟩] = .ok "[1, 2]" := by decide +kernel
  have hblocks : σ.store.Blocks [.object ⟨1⟩] [([.text (Text.literal "[1, 2]")], [])] :=
    .cons (.listed rfl hjoined) .nil
  obtain ⟨w, τ, hrun, hholds, -⟩ := expression_of_contributes hsegments hblocks
  refine ⟨hv, by decide, ?_, w, τ, hrun, hholds⟩
  rintro ⟨w', τ', hrun', hholds'⟩
  cases hrun.symm.trans hrun'
  have hliteral : [Item.text (Text.literal "[1, 2]")] = [.text (Element.join es).literal] :=
    hholds.unique hholds'
  have htext : Text.ofString "[1, 2]" = Element.join es :=
    Text.literal_injective (by simpa using hliteral)
  exact absurd htext (by decide)

end Build

end Splice
