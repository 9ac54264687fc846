import Splice.Proofs.Build
import Splice.Proofs.Json.Reader
/-!
# Literals — data reads back

A value is data if it is a finite tree of scalars, texts, lists, tuples
and maps, however its objects are shared. `Store.IsData` says so and says
in the same breath what the value stands for as JSON: lists and tuples are
arrays, a map keeps its entries in order, equal keys included, a key that
is not text is the text it is written as, a number keeps its text and a
text is its UTF-16 code units.

The encoder does not look at values but at the trees they unfold to, and
there an object met again below itself would be a cycle. What rules it out
is that an object stands for one JSON value only (`IsData.unique`): below
itself it would stand for a smaller one.
-/

namespace Splice

/-! ## What data stands for -/

/-- How a scalar is written as data, and what it stands for. -/
inductive Scalar.IsWritten : Scalar → Text → Json → Prop
  | null : IsWritten .null (Text.ofString "null") .null
  | bool (b : Bool) :
    IsWritten (.bool b) (Text.ofString (if b then "true" else "false")) (.bool b)
  | int {k : Int} (hk : isPrintableInt k = true) :
    IsWritten (.int k) (Text.ofInt k) (.number (Text.ofInt k))
  | float {x : Double} (hx : x.isFinite = true) :
    IsWritten (.float x) x.literalText (.number x.literalText)

/-- What a key stands for. -/
inductive Value.IsKey : Value → List Nat → Prop
  | scalar {c : Scalar} {t : Text} {j : Json} (h : c.IsWritten t j) : IsKey (.scalar c) t.units
  | text (t : Text) : IsKey (.text t) t.units

/-- What a value stands for, in which at most so many containers are
nested in each other. -/
inductive Store.IsData (s : Store) : Nat → Value → Json → Prop
  | scalar {n : Nat} {c : Scalar} {t : Text} {j : Json} (h : c.IsWritten t j) :
    s.IsData n (.scalar c) j
  | text {n : Nat} (t : Text) : s.IsData n (.text t) (.string t.units)
  | array {n : Nat} {r : Ref} {xs : List Value} {js : List Json}
    (hget : s.get r = .list xs ∨ s.get r = .tuple xs) (hlength : xs.length = js.length)
    (hitems : ∀ p ∈ xs.zip js, s.IsData n p.1 p.2) : s.IsData (n + 1) (.object r) (.array js)
  | dict {n : Nat} {r : Ref} {es : List (Value × Value)} {fs : List (List Nat × Json)}
    (hget : s.get r = .dict es) (hlength : es.length = fs.length)
    (hkeys : ∀ p ∈ es.zip fs, Value.IsKey p.1.1 p.2.1)
    (hvalues : ∀ p ∈ es.zip fs, s.IsData n p.1.2 p.2.2) : s.IsData (n + 1) (.object r) (.object fs)

section Unique

variable {s : Store} {n m : Nat} {v : Value} {j k : Json}

theorem Scalar.IsWritten.unique {c : Scalar} {t u : Text} (h : c.IsWritten t j)
    (h' : c.IsWritten u k) : t = u ∧ j = k := by
  cases h <;> cases h' <;> exact ⟨rfl, rfl⟩

theorem Value.IsKey.unique {us vs : List Nat} (h : Value.IsKey v us) (h' : Value.IsKey v vs) :
    us = vs := by
  cases h with
  | scalar h =>
    cases h' with
    | scalar h' => rw [(h.unique h').1]
  | text t => cases h'; rfl

/-- Rows are equal if each item of the one is all that can stand in its
place in the other. -/
theorem eq_of_forall₂ {α β : Type} {p : α → β → Prop} {xs : List α} {ys zs : List β}
    (h : List.Forall₂ (fun x y => ∀ z, p x z → y = z) xs ys) (h' : List.Forall₂ p xs zs) :
    ys = zs := by
  induction h generalizing zs with
  | nil => cases h'; rfl
  | cons hy _ ih =>
    cases h' with
    | cons hz hzs => rw [hy _ hz, ih hzs]

/-- **A value stands for one JSON value at most**, whatever depth is
allowed. -/
theorem Store.IsData.unique (h : s.IsData n v j) (h' : s.IsData m v k) : j = k := by
  -- An object is of one kind, so the second reading of it is of the same kind as the first.
  induction h generalizing m k with
  | scalar h =>
    cases h' with
    | scalar h' => exact (h.unique h').2
  | text t => cases h'; rfl
  | @array n r xs js hget hlength hitems ih =>
    cases h' with
    | @array m _ ys ks hget' hlength' hitems' =>
      obtain rfl : xs = ys := by
        rcases hget with hget | hget <;> rcases hget' with hget' | hget' <;>
          cases hget.symm.trans hget' <;> rfl
      have hrow : List.Forall₂ (s.IsData m) xs ks := List.forall₂_iff_zip.2 ⟨hlength', hitems' _⟩
      rw [eq_of_forall₂ (List.forall₂_iff_zip.2 ⟨hlength, fun hp _ => ih _ hp⟩) hrow]
    | dict hget' => rcases hget with hget | hget <;> cases hget.symm.trans hget'
  | @dict n r es fs hget hlength hkeys hvalues ih =>
    cases h' with
    | array hget' => rcases hget' with hget' | hget' <;> cases hget.symm.trans hget'
    | @dict m _ es' gs hget' hlength' hkeys' hvalues' =>
      cases hget.symm.trans hget'
      have hrow : List.Forall₂ (fun e g => Value.IsKey e.1 g.1 ∧ s.IsData m e.2 g.2) es gs :=
        List.forall₂_iff_zip.2 ⟨hlength', fun hp => ⟨hkeys' _ hp, hvalues' _ hp⟩⟩
      rw [eq_of_forall₂ (List.forall₂_iff_zip.2 ⟨hlength, fun hp _ hg => ?_⟩) hrow]
      exact Prod.ext ((hkeys _ hp).unique hg.1) (ih _ hp hg.2)

end Unique

/-! ## Trees that the encoder writes -/

namespace Text

/-- The second pass goes over the texts and what is between them. -/
theorem cleared_join (separator : Text) (ts : List Text) :
    (join separator ts).cleared = join separator.cleared (ts.map Text.cleared) := by
  induction ts with
  | nil => rfl
  | cons t ts ih =>
    cases ts with
    | nil => rfl
    | cons u ts =>
      rw [join_cons_cons, cleared_append, cleared_append, ih]
      rfl

/-- What is written between brackets and commas is cleared part by part. -/
theorem cleared_bracketed {opening closing : CodePoint} (ho : opening.isPlain = true)
    (hc : closing.isPlain = true) (ts : List Text) :
    Text.cleared (opening :: join [.char ','] ts ++ [closing]) =
      opening :: join [.char ','] (ts.map Text.cleared) ++ [closing] := by
  have plain {c : CodePoint} (h : c.isPlain = true) : Text.cleared [c] = [c] :=
    IsPlain.cleared (isPlain_cons.2 ⟨h, isPlain_nil⟩)
  rw [List.cons_append, ← List.singleton_append, cleared_append, cleared_append, cleared_join,
    plain ho, plain hc, plain (by decide)]
  rfl

end Text

namespace Scalar.IsWritten

variable {c : Scalar} {t : Text} {j : Json}

theorem encode (h : c.IsWritten t j) : c.encode = .ok t := by
  cases h with
  | null => rfl
  | bool b => cases b <;> rfl
  | int hk => rw [Scalar.encode, if_pos hk]
  | float hx => rw [Scalar.encode, if_pos hx]

theorem reads (h : c.IsWritten t j) : Json.Reads t j := by
  cases h with
  | null => exact .null
  | bool b => exact .bool b
  | int => exact .number (Text.isNumber_ofInt _)
  | float hx => exact .number (Double.isNumber_literalText hx)

end Scalar.IsWritten

namespace Datum

/-- The tree is written, and what is written is read as `j` when it has
been cleared. -/
def Spells (n : Nat) (d : Datum) (j : Json) : Prop :=
  ∃ t, d.encodeTo n = .ok t ∧ Json.Reads t.cleared j

/-- The key is written with the text of `us`. -/
def SpellsKey (d : Datum) (us : List Nat) : Prop := ∃ t, d.keyText = .ok t ∧ t.units = us

variable {n : Nat} {ds : List Datum} {es : List (Datum × Datum)} {js : List Json}
  {fs : List (List Nat × Json)}

theorem Spells.scalar {c : Scalar} {t : Text} {j : Json} (h : c.IsWritten t j) :
    Spells n (.scalar c) j := by
  refine ⟨t, h.encode, ?_⟩
  rw [(c.plain_encode h.encode).cleared]
  exact h.reads

theorem Spells.text (t : Text) : Spells n (.text t) (.string t.units) :=
  ⟨t.encoded, rfl, .string (Text.isString_literal t)⟩

theorem encodeItems_of_spells (h : List.Forall₂ (Spells n) ds js) :
    ∃ ts, encodeItems n ds = .ok ts ∧ List.Forall₂ Json.Reads (ts.map Text.cleared) js := by
  induction h with
  | nil => exact ⟨[], rfl, .nil⟩
  | cons hd _ ih =>
    obtain ⟨t, ht, hread⟩ := hd
    obtain ⟨ts, hts, hreads⟩ := ih
    refine ⟨t :: ts, ?_, .cons hread hreads⟩
    rw [encodeItems, ht, hts]
    rfl

/-- Lists and tuples are written as arrays. -/
theorem Spells.array (h : List.Forall₂ (Spells n) ds js) :
    Spells (n + 1) (.list ds) (.array js) ∧ Spells (n + 1) (.tuple ds) (.array js) := by
  obtain ⟨ts, hts, hreads⟩ := encodeItems_of_spells h
  have hread : Json.Reads (Text.cleared (.char '[' :: Text.join [.char ','] ts ++ [.char ']']))
      (.array js) := by
    rw [Text.cleared_bracketed (by decide) (by decide)]
    exact .array hreads
  constructor
  all_goals
    refine ⟨_, ?_, hread⟩
    rw [encodeTo, hts]
    rfl

theorem encodeEntries_of_spells
    (h : List.Forall₂ (fun e f => SpellsKey e.1 f.1 ∧ Spells n e.2 f.2) es fs) :
    ∃ ts, encodeEntries n es = .ok ts ∧
      List.Forall₂ Json.ReadsEntry (ts.map Text.cleared) fs := by
  induction h with
  | nil => exact ⟨[], rfl, .nil⟩
  | @cons e f es fs he _ ih =>
    obtain ⟨⟨u, hu, hunits⟩, t, ht, hread⟩ := he
    obtain ⟨ts, hts, hreads⟩ := ih
    refine ⟨(u.encoded ++ .char ':' :: t) :: ts, ?_, .cons ?_ hreads⟩
    · rw [encodeEntries, hu, ht, hts]
      rfl
    · refine ⟨u.literal, t.cleared, Text.cleared_append _ _, ?_, hread⟩
      rw [← hunits]
      exact Text.isString_literal u

/-- Maps are written as objects. -/
theorem Spells.dict (h : List.Forall₂ (fun e f => SpellsKey e.1 f.1 ∧ Spells n e.2 f.2) es fs) :
    Spells (n + 1) (.dict es) (.object fs) := by
  obtain ⟨ts, hts, hreads⟩ := encodeEntries_of_spells h
  refine ⟨.char '\x7b' :: Text.join [.char ','] ts ++ [.char '\x7d'], ?_, ?_⟩
  · rw [encodeTo, hts]
    rfl
  · rw [Text.cleared_bracketed (by decide) (by decide)]
    exact .object hreads

end Datum

/-! ## From values to their trees -/

namespace Store

variable {s : Store} {n : Nat} {v : Value} {j : Json}

/-- What the objects of a path stand for is greater than `j`, so nothing
that stands for `j` is one of them. -/
def Above (s : Store) (path : List Ref) (j : Json) : Prop :=
  ∀ r ∈ path, ∀ m k, s.IsData m (.object r) k → sizeOf j < sizeOf k

theorem Above.not_mem {path : List Ref} {r : Ref} (hpath : s.Above path j)
    (h : s.IsData n (.object r) j) : r ∉ path :=
  fun hr => absurd (hpath r hr n j h) (Nat.lt_irrefl _)

/-- The path goes on below an object that stands for more than `j`. -/
theorem Above.cons {path : List Ref} {r : Ref} {k : Json} (hpath : s.Above path k)
    (h : s.IsData n (.object r) k) (hlt : sizeOf j < sizeOf k) : s.Above (r :: path) j := by
  intro q hq m k' hk'
  rcases List.mem_cons.1 hq with rfl | hq
  · rwa [← h.unique hk']
  · exact Nat.lt_trans hlt (hpath q hq m k' hk')

theorem spellsKey_unfold {us : List Nat} (h : Value.IsKey v us) (fuel : Nat) (path : List Ref) :
    (s.unfold fuel path v).SpellsKey us := by
  cases h with
  | @scalar c t j h =>
    refine ⟨t, ?_, rfl⟩
    rw [unfold, Datum.keyText, h.encode]
  | text t =>
    refine ⟨t, ?_, rfl⟩
    rw [unfold, Datum.keyText]

/-- **The tree of data is written as what the data stands for.** -/
theorem IsData.spells_unfold (h : s.IsData n v j) {fuel : Nat} (hfuel : n ≤ fuel)
    {path : List Ref} (hpath : s.Above path j) : (s.unfold fuel path v).Spells n j := by
  -- Parts stand for less than the whole, so the path stays above them and is never met again.
  induction h generalizing fuel path with
  | scalar h =>
    rw [unfold]
    exact .scalar h
  | text t =>
    rw [unfold]
    exact .text t
  | @array n r xs js hget hlength hitems ih =>
    obtain ⟨fuel, rfl⟩ := Nat.exists_eq_add_of_le' (Nat.le_trans (Nat.le_add_left 1 n) hfuel)
    have hr : s.IsData (n + 1) (.object r) (.array js) := .array hget hlength hitems
    have hrow : List.Forall₂ (Datum.Spells n) (xs.map (s.unfold fuel (r :: path))) js := by
      rw [List.forall₂_map_left_iff, List.forall₂_iff_zip]
      refine ⟨hlength, fun hp => ih _ hp (Nat.le_of_succ_le_succ hfuel) (hpath.cons hr ?_)⟩
      have := List.sizeOf_lt_of_mem (List.of_mem_zip hp).2
      simp only [Json.array.sizeOf_spec]
      omega
    rw [unfold, if_neg (hpath.not_mem hr)]
    rcases hget with hget | hget
    · rw [hget]
      exact (Datum.Spells.array hrow).1
    · rw [hget]
      exact (Datum.Spells.array hrow).2
  | @dict n r es fs hget hlength hkeys hvalues ih =>
    obtain ⟨fuel, rfl⟩ := Nat.exists_eq_add_of_le' (Nat.le_trans (Nat.le_add_left 1 n) hfuel)
    have hr : s.IsData (n + 1) (.object r) (.object fs) := .dict hget hlength hkeys hvalues
    rw [unfold, if_neg (hpath.not_mem hr), hget]
    refine .dict ?_
    rw [List.forall₂_map_left_iff, List.forall₂_iff_zip]
    refine ⟨hlength, fun {e f} hp => ⟨spellsKey_unfold (hkeys _ hp) fuel _, ?_⟩⟩
    refine ih _ hp (Nat.le_of_succ_le_succ hfuel) (hpath.cons hr ?_)
    have := List.sizeOf_lt_of_mem (List.of_mem_zip hp).2
    obtain ⟨us, k⟩ := f
    simp only [Json.object.sizeOf_spec, Prod.mk.sizeOf_spec] at this ⊢
    omega

end Store

/-- **Data reads back.** The literal of data is one document, and its
value is what the data stands for. -/
theorem Build.read_literal {σ : Session} {v : Value} {j : Json}
    (h : σ.store.IsData Datum.maxDepth v j) :
    ∃ t, literal v σ = .ok t σ ∧ Json.read t = some j := by
  have hpath : σ.store.Above [] j := fun r hr => absurd hr List.not_mem_nil
  have hreach : Datum.maxDepth ≤ Datum.reach := by decide
  obtain ⟨t, ht, hread⟩ := h.spells_unfold hreach hpath
  refine ⟨t.cleared, literal_of_ok ?_, hread.read⟩
  rw [Store.datum, Datum.encode, ht]
  rfl

/-- A map with two equal keys whose values share a list, a line separator
and a pair of surrogates in a text, and a key that is not text. -/
theorem Build.read_literal_shared :
    let σ : Session := ⟨⟨#[.list [.scalar (.int 1), .scalar (.float ⟨0x3FE0000000000000⟩)],
      .tuple [.text (.surrogate 61 :: .surrogate 1536 :: Text.ofString "\u2028"), .object ⟨0⟩],
      .dict [(.text "1", .object ⟨1⟩), (.scalar (.int 1), .object ⟨0⟩),
        (.scalar (.bool true), .scalar .null)]]⟩, []⟩
    let numbers : Json := .array [.number "1", .number "0.5"]
    let j : Json := .object [(Text.units "1", .array [.string [0xD83D, 0xDE00, 0x2028], numbers]),
      (Text.units "1", numbers), (Text.units "true", .null)]
    σ.store.IsData Datum.maxDepth (.object ⟨2⟩) j ∧
      ∃ t, literal (.object ⟨2⟩) σ = .ok t σ ∧ Json.read t = some j := by
  intro σ numbers j
  have hone : (Scalar.int 1).IsWritten "1" (.number "1") := .int (isPrintableInt_of_lt (by decide))
  have hhalf : (Scalar.float ⟨0x3FE0000000000000⟩).IsWritten "0.5" (.number "0.5") := by
    have htext : Double.literalText ⟨0x3FE0000000000000⟩ = "0.5" := by decide +kernel
    rw [← htext]
    exact .float rfl
  have hnumbers {n : Nat} : σ.store.IsData (n + 1) (.object ⟨0⟩) numbers := by
    refine .array (.inl rfl) rfl (List.forall_mem_cons.2 ⟨.scalar hone, ?_⟩)
    exact List.forall_mem_singleton.2 (.scalar hhalf)
  have hpair {n : Nat} : σ.store.IsData (n + 2) (.object ⟨1⟩)
      (.array [.string [0xD83D, 0xDE00, 0x2028], numbers]) := by
    refine .array (.inr rfl) rfl (List.forall_mem_cons.2 ⟨.text _, ?_⟩)
    exact List.forall_mem_singleton.2 hnumbers
  have hdata : σ.store.IsData Datum.maxDepth (.object ⟨2⟩) j := by
    refine .dict rfl rfl ?_ ?_
    · exact List.forall_mem_cons.2 ⟨.text _, List.forall_mem_cons.2 ⟨.scalar hone,
        List.forall_mem_singleton.2 (.scalar (.bool true))⟩⟩
    · exact List.forall_mem_cons.2 ⟨hpair, List.forall_mem_cons.2 ⟨hnumbers,
        List.forall_mem_singleton.2 (.scalar .null)⟩⟩
  exact ⟨hdata, Build.read_literal hdata⟩

end Splice
