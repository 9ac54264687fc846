import Splice.Proofs.Code
import Splice.Proofs.History
import Splice.Proofs.Names
import Mathlib.Algebra.Order.BigOperators.Group.List
import Mathlib.Algebra.Order.Group.Nat
/-!
# Histories — names stay live

An argument adds a block of items to what is built. The block keeps the
names of the argument (`Store.Keeps`) if they are the names among its
items, in the same order, and none of its texts has come from a name. In
code each argument adds such a block (`Build.exists_keeps_of_code`). In a
string expression it does so unless it is a list: the elements of a list
are joined to one text, whatever they are, and the names among them are
neither live nor counted. So code keeps all names, and a string expression
does exactly if there are none in its lists (`Reachable.keeps_names`).
-/

namespace Splice

open Store

namespace Store

variable {s s' : Store} {hand args xs ys block : List Value} {v : Value} {e : Bool}

/-! ## Blocks that keep names -/

/-- A text that an argument puts among the items and has not taken from a name. -/
inductive Brings (s : Store) (v : Value) : Text → Prop
  /-- The literal of data without names, as it is when its turn has come. -/
  | literal {s' : Store} {t : Text} : s.namesOf v = [] → Rewrites MergesTo s.IsItems s s' →
      (s'.datum v).encode = .ok t → Brings s v t
  /-- The literal of the elements of a list without names. -/
  | listed {s' : Store} {xs : List Value} {t : Text} : s.namesOf v = [] →
      Rewrites MergesTo s.IsItems s s' → s'.listed? v = some xs → s'.joinElements xs = .ok t →
      Brings s v t.literal
  /-- A text that a fragment holds, or that its items are merged into. -/
  | item {xs ys : List Value} {e : Bool} {t : Text} : s.Holds v xs e → MergesTo xs ys →
      .text t ∈ ys → Brings s v t

/-- A block of items that keeps the names of an argument. -/
structure Keeps (s : Store) (v : Value) (block : List Value) : Prop where
  /-- The names among the items are those of the argument. -/
  names : Item.names block = s.namesOf v
  /-- No text has come from a name. -/
  texts : ∀ t, .text t ∈ block → s.Brings v t

theorem keeps_name (s : Store) (n : Name) : s.Keeps (.name n) [.name n] :=
  ⟨rfl, fun t ht => by simp at ht⟩

theorem keeps_scalar (s : Store) (c : Scalar) : s.Keeps (.scalar c) [.scalar c] :=
  ⟨rfl, fun t ht => by simp at ht⟩

/-- The literal of data, which can only be written if there is no name in it. -/
theorem keeps_literal {t : Text} (ht : (s.datum v).encode = .ok t) : s.Keeps v [.text t] := by
  have hnames : s.namesOf v = [] := Datum.names_of_encode ht
  refine ⟨hnames.symm, fun u hu => ?_⟩
  obtain rfl : u = t := by simpa using hu
  exact .literal hnames .refl ht

/-- The items of a fragment, as they are or folded. -/
theorem Sound.keeps_fragment (h : s.Sound hand) (hv : s.Holds v xs e) (hmerges : MergesTo xs ys) :
    s.Keeps v ys :=
  ⟨hmerges.names.trans (h.namesOf_of_holds hv).symm, fun _ ht => .item hv hmerges ht⟩

/-- Lists of items can be merged again. -/
theorem Sound.rewrites_trans {s'' : Store} (h : s.Sound hand)
    (hw : Rewrites MergesTo s.IsItems s s') (hw' : Rewrites MergesTo s'.IsItems s' s'') :
    Rewrites MergesTo s.IsItems s s'' := by
  refine (Rewrites.trans (K := MergesTo) MergesTo.trans hw hw').congr fun q => ?_
  rw [h.isItems_rewrites hw fun _ hq => hq, or_self]

/-- **What keeps names later on keeps them now**, if lists of items are
merged meanwhile. -/
theorem Sound.keeps_rewrites (h : s.Sound hand) (hw : Rewrites MergesTo s.IsItems s s')
    (hk : s'.Keeps v block) : s.Keeps v block := by
  refine ⟨hk.names.trans (h.namesOf_rewrites hw v), fun t ht => ?_⟩
  have hnames : s'.namesOf v = s.namesOf v := h.namesOf_rewrites hw v
  cases hk.texts t ht with
  | literal hnone hw' hencoded =>
    exact .literal (hnames ▸ hnone) (h.rewrites_trans hw hw') hencoded
  | listed hnone hw' hlisted hjoined =>
    exact .listed (hnames ▸ hnone) (h.rewrites_trans hw hw') hlisted hjoined
  | item hv hmerges hmem =>
    obtain ⟨xs, hxs, hfirst⟩ := h.holds_rewrites hw (fun _ hq => hq) hv
    exact .item hxs (hfirst.trans hmerges) hmem

end Store

/-! ## Code -/

namespace Build

variable {σ τ : Session} {hand args : List Value} {segments : Segments} {ts : List Text}
  {a b : Assembly} {v w arg : Value}

/-- Pushed after lists of items have been merged, a code value gives a
block that keeps its names. -/
theorem keeps_of_pushed {υ : Session} {ys : List Value} (h : σ.store.Sound hand)
    (hw : Rewrites MergesTo σ.store.IsItems σ.store τ.store) (hv : σ.store.isCode v = true)
    (hpushed : pushed v τ = .ok ys υ) : σ.store.Keeps v ys := by
  rcases h.name_or_holds hv with ⟨n, rfl⟩ | ⟨xs, e, hholds⟩
  · cases hpushed
    exact keeps_name _ n
  · obtain ⟨zs, hmerges, hzs⟩ := h.pushed_rewrites hw (fun _ hq => hq) hv hholds.pushed
    cases hzs.symm.trans hpushed
    exact h.keeps_fragment hholds hmerges

/-- **A code value spliced into code** adds a block that keeps its names. -/
theorem exists_keeps_of_spliceCode (h : σ.store.Sound hand) (ha : a.IsTallied)
    (hv : σ.store.isCode v = true) (hrun : spliceCode a v σ = .ok b τ) :
    ∃ block, σ.store.Keeps v block ∧ b.items.toList = a.items.toList ++ block := by
  obtain ⟨xs, uses, huses, htallies, -⟩ := h.code hv
  obtain ⟨used, hused, -⟩ := addUses_of_tallies huses htallies ha.tallies
  simp only [spliceCode] at hrun
  rw [bind_of_ok hused] at hrun
  obtain ⟨e, υ, he, hsplice⟩ := bind_eq_ok.1 hrun
  obtain ⟨-, rfl⟩ := read_eq_ok.1 he
  cases e with
  | true =>
    obtain ⟨w, ρ, hfold, hpush⟩ := bind_eq_ok.1 hsplice
    obtain ⟨ys, ρ', hpushed, hend⟩ := bind_eq_ok.1 hpush
    have hw : Rewrites MergesTo υ.store.IsItems υ.store ρ.store :=
      (((runs_foldCode h v).ok hfold).2.imp FoldsTo.mergesTo).mono fun q => isItems_of_itemsOf
    cases hend
    exact ⟨ys, keeps_of_pushed h hw hv hpushed, by simp [Assembly.append]⟩
  | false =>
    obtain ⟨ys, ρ, hpushed, hend⟩ := bind_eq_ok.1 hsplice
    cases hend
    exact ⟨ys, keeps_of_pushed h .refl hv hpushed, by simp [Assembly.append]⟩

/-- **An argument of code** adds a block that keeps its names. -/
theorem exists_keeps_of_addArgument (h : σ.store.Sound hand) (ha : a.IsTallied)
    (hrun : addArgument a arg σ = .ok b τ) :
    ∃ block, σ.store.Keeps arg block ∧ b.items.toList = a.items.toList ++ block := by
  simp only [addArgument] at hrun
  obtain ⟨w, υ, hargument, hrest⟩ := bind_eq_ok.1 hrun
  obtain ⟨rfl, hw⟩ := (reads_argument arg).ok hargument
  rw [bind_of_ok (ask_apply _)] at hrest
  cases hcode : υ.store.isCode w with
  | true =>
    simp only [hcode, if_true] at hrest
    rcases hw with ⟨rfl, -⟩ | ⟨-, t, rfl, -⟩
    · exact exists_keeps_of_spliceCode h ha hcode hrest
    · cases hcode
  | false =>
    simp only [hcode, Bool.false_eq_true, if_false] at hrest
    cases hrest
    rcases hw with ⟨rfl, hbare⟩ | ⟨-, t, rfl, hencoded⟩
    · -- What goes in as it is and is no code is a scalar.
      unfold goesInBare at hbare
      split at hbare
      · exact ⟨_, keeps_scalar _ _, by simp [Assembly.push]⟩
      · cases hcode.symm.trans hbare
    · exact ⟨_, keeps_literal hencoded, by simp [Assembly.push]⟩

/-- **The arguments of code** add a block each, with a segment behind it. -/
theorem exists_keeps_of_codeArguments (h : σ.store.Sound hand) (hts : segments.Are σ.store ts)
    (hheld : ∀ r, segments = .held r → .object r ∈ hand) (ha : a.IsTallied) {i : Nat}
    (hrun : codeArguments segments i args a σ = .ok b τ) :
    ∃ rest : List (List Value × Text), (∀ t ∈ rest.map Prod.snd, t ∈ ts) ∧
      List.Forall₂ (fun arg p => σ.store.Keeps arg p.1) args rest ∧
      b.items.toList = a.items.toList ++ rest.flatMap fun p => p.1 ++ [.text p.2] := by
  -- The store changes from one argument to the next, so the induction is for any store.
  induction args generalizing σ i a with
  | nil =>
    cases hrun
    exact ⟨[], List.forall_mem_nil _, .nil, by simp⟩
  | cons arg args ih =>
    simp only [codeArguments] at hrun
    obtain ⟨c, υ, hadd, hsegment⟩ := bind_eq_ok.1 hrun
    obtain ⟨w, υ', hget, hargs⟩ := bind_eq_ok.1 hsegment
    obtain ⟨block, hkeeps, hblock⟩ := exists_keeps_of_addArgument h ha hadd
    obtain ⟨hc, hfolds⟩ := (runs_addArgument h ha arg).ok hadd
    have hw : Rewrites MergesTo σ.store.IsItems σ.store υ.store :=
      (hfolds.imp FoldsTo.mergesTo).mono fun q => ExpressionItems.isItems
    have hts' : segments.Are υ.store ts := hts.rewrites hheld h hw fun _ hq => hq
    obtain ⟨rfl, t, ht, rfl⟩ := Segments.get_eq_ok hts' hget
    obtain ⟨rest, hrest, hblocks, hitems⟩ :=
      ih (h.rewrites hw fun _ hq => hq) hts' (hc.push_text t) hargs
    refine ⟨(block, t) :: rest, List.forall_mem_cons.2 ⟨ht, hrest⟩,
      .cons hkeeps (hblocks.imp fun _ _ => h.keeps_rewrites hw), ?_⟩
    rw [hitems]
    simp [Assembly.push, hblock]

/-- An assembly becomes a fragment that holds its items. -/
theorem holds_of_assemble (ha : a.IsTallied) {e : Bool} (hrun : assemble a e σ = .ok v τ) :
    τ.store.Holds v a.items.toList e := by
  obtain ⟨w, υ, hassemble, hholds, -⟩ := assemble_holds (σ := σ) ha.tallies.isWhole e
  cases hassemble.symm.trans hrun
  exact hholds

/-- **Code holds its segments and a block for each argument** between
them, which keeps the names of the argument. -/
theorem exists_keeps_of_code (h : σ.store.Sound hand) (hts : segments.Are σ.store ts)
    (hheld : ∀ r, segments = .held r → .object r ∈ hand)
    (hrun : code segments args σ = .ok v τ) :
    ∃ t₀ rest, (∀ t ∈ t₀ :: rest.map Prod.snd, t ∈ ts) ∧
      List.Forall₂ (fun arg p => σ.store.Keeps arg p.1) args rest ∧
      τ.store.Holds v (Row.spliced t₀ rest) false := by
  have hs : segments.AreGiven σ.store hand := ⟨⟨ts, hts⟩, hheld⟩
  simp only [code] at hrun
  obtain ⟨_, υ, harity, hfirst⟩ := bind_eq_ok.1 hrun
  obtain ⟨rfl, -⟩ := (reads_checkArity segments args).ok harity
  obtain ⟨w, υ', hget, hargs⟩ := bind_eq_ok.1 hfirst
  obtain ⟨rfl, t₀, ht₀, rfl⟩ := Segments.get_eq_ok hts hget
  obtain ⟨b, ρ, hb, hassemble⟩ := bind_eq_ok.1 hargs
  have htallied : (⟨#[.text t₀], []⟩ : Assembly).IsTallied := .of_texts [t₀]
  obtain ⟨rest, hrest, hkeeps, hitems⟩ := exists_keeps_of_codeArguments h hts hheld htallied hb
  obtain ⟨hb', -⟩ := (runs_codeArguments h hs htallied 1).ok hb
  have hholds : τ.store.Holds v b.items.toList false := holds_of_assemble hb' hassemble
  rw [hitems] at hholds
  exact ⟨t₀, rest, List.forall_mem_cons.2 ⟨ht₀, hrest⟩, hkeeps, hholds⟩

end Build

/-! ## String expressions -/

namespace Store

variable {s : Store} {hand args block : List Value} {v : Value}

/-- The names that a string expression takes over from an argument: those
of a list are joined to its text. -/
def takenOver (s : Store) (v : Value) : List Name :=
  match s.listed? v with
  | some _ => []
  | none => s.namesOf v

theorem takenOver_of_listed {xs : List Value} (h : s.listed? v = some xs) :
    s.takenOver v = [] := by
  rw [takenOver, h]

theorem takenOver_of_not_listed (h : s.listed? v = none) : s.takenOver v = s.namesOf v := by
  rw [takenOver, h]

/-- What a string expression takes over from an argument is what a block
of it holds. -/
theorem Contributes.names (h : s.Sound hand) (hv : s.Contributes v block) :
    Item.names block = s.takenOver v := by
  cases hv with
  | name n => rfl
  | scalar c => rfl
  | literal hbare hlisted ht =>
    rw [takenOver_of_not_listed hlisted]
    exact (Datum.names_of_encode ht).symm
  | listed hlisted ht =>
    rw [takenOver_of_listed hlisted]
    rfl
  | fragment hv =>
    rw [takenOver_of_not_listed (listed?_of_isCode hv.isCode), h.namesOf_of_holds hv]

/-- A block keeps the names of an argument that is no list with names in it. -/
theorem Contributes.keeps (h : s.Sound hand) (hv : s.Contributes v block)
    (hnone : ∀ xs, s.listed? v = some xs → s.namesOf v = []) : s.Keeps v block := by
  cases hv with
  | name n => exact keeps_name s n
  | scalar c => exact keeps_scalar s c
  | literal hbare hlisted ht => exact keeps_literal ht
  | @listed _ xs t hlisted ht =>
    refine ⟨(hnone xs hlisted).symm, fun u hu => ?_⟩
    obtain rfl : u = t.literal := by simpa using hu
    exact .listed (hnone xs hlisted) .refl hlisted ht
  | fragment hv => exact h.keeps_fragment hv (.refl _)

/-- **All names are taken over exactly if there are none in the lists.** -/
theorem flatMap_takenOver_iff :
    args.flatMap s.takenOver = args.flatMap s.namesOf ↔
      ∀ v ∈ args, ∀ xs, s.listed? v = some xs → s.namesOf v = [] := by
  have hle : ∀ v, (s.takenOver v).length ≤ (s.namesOf v).length := by
    intro v
    rw [takenOver]
    split <;> simp
  constructor
  · intro heq v hv xs hxs
    by_contra hne
    have hlt : (s.takenOver v).length < (s.namesOf v).length := by
      rw [takenOver_of_listed hxs]
      exact List.length_pos_iff.2 hne
    -- One argument that loses names makes the row of all names shorter.
    have hsum := List.sum_lt_sum (fun v => (s.takenOver v).length) (fun v => (s.namesOf v).length)
      (fun v _ => hle v) ⟨v, hv, hlt⟩
    rw [← List.length_flatMap, ← List.length_flatMap, heq] at hsum
    exact Nat.lt_irrefl _ hsum
  · intro hnone
    refine List.flatMap_congr fun v hv => ?_
    cases hlisted : s.listed? v with
    | some xs => rw [takenOver_of_listed hlisted, hnone v hv xs hlisted]
    | none => exact takenOver_of_not_listed hlisted

end Store

namespace Row

variable {t : Text} {rest : List (List Value × Text)}

/-- The segments of code are no names. -/
theorem names_spliced (t : Text) (rest : List (List Value × Text)) :
    Item.names (spliced t rest) = rest.flatMap fun p => Item.names p.1 := by
  rw [spliced, Item.names_cons, Item.names_text, List.nil_append]
  induction rest with
  | nil => rfl
  | cons p rest ih =>
    rw [List.flatMap_cons, Item.names_append, Item.names_append, Item.names_text, List.append_nil,
      ih, List.flatMap_cons]

/-- Neither are the literals of segments, and the operator. -/
theorem names_laid (acc : List Value) (rest : List (List Value × Text)) :
    Item.names (laid Item.plus segmentItem acc rest) =
      Item.names acc ++ rest.flatMap fun p => Item.names p.1 := by
  induction rest generalizing acc with
  | nil => simp [laid]
  | cons p rest ih =>
    obtain ⟨block, t⟩ := p
    have hjoin : Item.names (join Item.plus acc) = Item.names acc := by
      rw [join]
      split
      · simp_all
      · rw [Item.names_append, Item.plus, Item.names_text, List.append_nil]
    have hsegment : Item.names (segment Item.plus segmentItem t) = [] := by
      rw [segment]
      split <;> rfl
    rw [laid, ih, Item.names_append, Item.names_append, hjoin, hsegment, List.flatMap_cons]
    simp

/-- A text of code is a segment, or it is in a block. -/
theorem mem_spliced {t₀ : Text} (h : .text t ∈ spliced t₀ rest) :
    t ∈ t₀ :: rest.map Prod.snd ∨ ∃ p ∈ rest, .text t ∈ p.1 := by
  simp only [spliced, List.mem_cons, List.mem_flatMap, List.mem_append,
    Item.text.injEq, List.not_mem_nil, or_false] at h
  rcases h with rfl | ⟨p, hp, hblock | rfl⟩
  · exact .inl List.mem_cons_self
  · exact .inr ⟨p, hp, hblock⟩
  · exact .inl (List.mem_cons_of_mem _ (List.mem_map_of_mem hp))

end Row

namespace Build

variable {σ τ : Session} {hand args : List Value} {segments : Segments} {ts : List Text} {v : Value}

/-- **A string expression holds the literals of its segments and a block
for each argument** between them. -/
theorem exists_blocks_of_expression (h : σ.store.Sound hand) (hts : segments.Are σ.store ts)
    (hrun : expression segments args σ = .ok v τ) :
    ∃ t₀ rest, (∀ t ∈ t₀ :: rest.map Prod.snd, t ∈ ts) ∧ σ.store.Blocks args rest ∧
      τ.store.Holds v (Row.laid Item.plus segmentItem (Row.head segmentItem t₀) rest) true := by
  -- The run has read a first segment, so there is one.
  obtain ⟨t₀, us, rfl⟩ : ∃ t₀ us, ts = t₀ :: us := by
    simp only [expression] at hrun
    obtain ⟨_, υ, harity, hfirst⟩ := bind_eq_ok.1 hrun
    obtain ⟨rfl, -⟩ := (reads_checkArity segments args).ok harity
    obtain ⟨w, υ', hget, -⟩ := bind_eq_ok.1 hfirst
    obtain ⟨-, t, ht, -⟩ := Segments.get_eq_ok hts hget
    exact List.exists_cons_of_ne_nil (List.ne_nil_of_mem ht)
  have hcode : ∀ arg ∈ args, σ.store.isCode arg = true →
      ∃ block, σ.store.Contributes arg block := by
    intro arg _ harg
    rcases h.name_or_holds harg with ⟨n, rfl⟩ | ⟨xs, e, hholds⟩
    · exact ⟨_, .name n⟩
    · exact ⟨xs, .fragment hholds⟩
  obtain ⟨rest, rfl, hblocks⟩ := contributes_of_expression hts hcode hrun
  obtain ⟨w, υ, hrun', hholds, -⟩ := expression_of_contributes hts hblocks
  cases hrun'.symm.trans hrun
  exact ⟨t₀, rest, fun _ ht => ht, hblocks, hholds⟩

end Build

/-! ## Names live in what is built -/

/-- A text that no name in the arguments has gone into. -/
inductive Store.Nameless (s : Store) (segments : Segments) (args : List Value) : Text → Prop
  /-- A segment. -/
  | segment {ts : List Text} {t : Text} : segments.Are s ts → t ∈ ts → Nameless s segments args t
  /-- The literal of a segment. -/
  | literal {ts : List Text} {t : Text} : segments.Are s ts → t ∈ ts →
      Nameless s segments args t.literal
  /-- The operator. -/
  | plus : Nameless s segments args Item.plusText
  /-- A text that an argument has not taken from a name. -/
  | argument {v : Value} {t : Text} : v ∈ args → s.Brings v t → Nameless s segments args t

/-- The answer `v` to a call with these arguments, which holds the items
`xs` afterwards, keeps the names of the arguments. -/
structure Store.KeepsNames (s : Store) (segments : Segments) (args : List Value) (s' : Store)
    (v : Value) (xs : List Value) : Prop where
  /-- The names among the items are those in the arguments, in order. -/
  live : Item.names xs = args.flatMap s.namesOf
  /-- The usage map has the number of times that each name is in the arguments. -/
  counted : ∃ m : Usage, s'.usesOf v = .ok m ∧ ∀ n : Name,
    m.count s' (.text n.text) = .scalar (.int ((args.flatMap s.namesOf).count n))
  /-- No text among the items has come from a name. -/
  texts : ∀ t, .text t ∈ xs → s.Nameless segments args t
  /-- The items have the same names when they are folded, or merged in part. -/
  merged : ∀ ys, MergesTo xs ys → Item.names ys = Item.names xs
  /-- With other names in their places they fold to the same texts. -/
  folded : ∀ ys f, FoldsTo xs ys → FoldsTo (xs.map (Item.rename f)) (ys.map (Item.rename f))

namespace Store

variable {s s' : Store} {hand args xs : List Value} {segments : Segments} {v : Value}

/-- A fragment of a sound store counts its names. -/
theorem Sound.counts_of_holds {e : Bool} (h : s.Sound hand) (hv : s.Holds v xs e) :
    ∃ m : Usage, s.usesOf v = .ok m ∧
      ∀ n : Name, m.count s (.text n.text) = .scalar (.int ((Item.names xs).count n)) := by
  obtain @⟨r, q, used, _, _, hr, hq, -⟩ := hv
  obtain ⟨_, _, hitems, hq', -, hused⟩ := h.fragment hr
  cases hitems
  cases hq.symm.trans hq'
  obtain ⟨m, hm, -, htallies⟩ := hused.countsIn
  refine ⟨m, by simp [usesOf, hr, hm], fun n => ?_⟩
  rw [htallies.count n, Item.count_names]
  rfl

/-- Names that are live are counted, and stay live when the items are folded. -/
theorem Sound.keepsNames {e : Bool} (h : s'.Sound hand) (hv : s'.Holds v xs e)
    (hlive : Item.names xs = args.flatMap s.namesOf)
    (htexts : ∀ t, .text t ∈ xs → s.Nameless segments args t) :
    s.KeepsNames segments args s' v xs := by
  refine ⟨hlive, ?_, htexts, fun ys hys => hys.names, fun ys f hys => hys.rename f⟩
  rw [← hlive]
  exact h.counts_of_holds hv

variable {rest : List (List Value × Text)}

/-- What is among the items of blocks is what each of them holds. -/
theorem names_of_forall₂ {f : Value → List Name}
    (h : List.Forall₂ (fun arg p => Item.names p.1 = f arg) args rest) :
    (rest.flatMap fun p => Item.names p.1) = args.flatMap f := by
  induction h with
  | nil => rfl
  | cons hp _ ih => rw [List.flatMap_cons, List.flatMap_cons, hp, ih]

/-- Without names in lists, the blocks of a string expression keep the names. -/
theorem Sound.keeps_of_blocks (h : s.Sound hand) (hblocks : s.Blocks args rest)
    (hnone : ∀ v ∈ args, ∀ ys, s.listed? v = some ys → s.namesOf v = []) :
    List.Forall₂ (fun arg p => s.Keeps arg p.1) args rest := by
  induction hblocks with
  | nil => exact .nil
  | cons hp _ ih =>
    obtain ⟨hfirst, hrest⟩ := List.forall_mem_cons.1 hnone
    exact .cons (hp.keeps h hfirst) (ih hrest)

/-- The texts of blocks that keep names have come from no name. -/
theorem nameless_of_keeps (h : List.Forall₂ (fun arg p => s.Keeps arg p.1) args rest)
    {p : List Value × Text} (hp : p ∈ rest) {t : Text} (ht : .text t ∈ p.1) :
    s.Nameless segments args t := by
  obtain ⟨arg, harg, hk⟩ : ∃ arg ∈ args, s.Keeps arg p.1 := by
    induction h with
    | nil => cases hp
    | cons hk _ ih =>
      rcases List.mem_cons.1 hp with rfl | hp
      · exact ⟨_, List.mem_cons_self, hk⟩
      · obtain ⟨arg, harg, hk⟩ := ih hp
        exact ⟨arg, List.mem_cons_of_mem _ harg, hk⟩
  exact .argument harg (hk.texts t ht)

end Store

namespace Reachable

variable {σ : Session} {hand args : List Value} {segments : Segments}

/-- **Names stay live.** Code keeps all names that are in its arguments, in
fragments among them at any depth: they are live, in order, and counted,
and no text has come from one of them, folded or not. A string expression
takes over the names of the arguments that are no lists, and so it keeps
all names exactly if there are none in the lists. -/
theorem keeps_names (h : Reachable σ hand) (hargs : ∀ v ∈ args, Store.IsGiven hand v)
    (hsegments : segments.AreGiven σ.store hand) :
    (∀ v τ, Build.code segments args σ = .ok v τ → ∃ xs, τ.store.Holds v xs false ∧
      σ.store.KeepsNames segments args τ.store v xs) ∧
    ∀ v τ, Build.expression segments args σ = .ok v τ → ∃ xs, τ.store.Holds v xs true ∧
      Item.names xs = args.flatMap σ.store.takenOver ∧
      (σ.store.KeepsNames segments args τ.store v xs ↔
        ∀ w ∈ args, ∀ ys, σ.store.listed? w = some ys → σ.store.namesOf w = []) := by
  obtain ⟨⟨ts, hts⟩, hheld⟩ := hsegments
  constructor
  · intro v τ hrun
    have hτ : Reachable τ (v :: hand) :=
      .answered (c := .code segments args) h ⟨hargs, ⟨ts, hts⟩, hheld⟩ hrun
    obtain ⟨t₀, rest, hsegs, hkeeps, hholds⟩ :=
      Build.exists_keeps_of_code h.sound hts hheld hrun
    refine ⟨_, hholds, hτ.sound.keepsNames hholds ?_ fun t ht => ?_⟩
    · rw [Row.names_spliced]
      exact names_of_forall₂ (hkeeps.imp fun _ _ hk => hk.names)
    · rcases Row.mem_spliced ht with hsegment | ⟨p, hp, hblock⟩
      · exact .segment hts (hsegs t hsegment)
      · exact nameless_of_keeps hkeeps hp hblock
  · intro v τ hrun
    have hτ : Reachable τ (v :: hand) :=
      .answered (c := .expression segments args) h ⟨hargs, ⟨ts, hts⟩, hheld⟩ hrun
    obtain ⟨t₀, rest, hsegs, hblocks, hholds⟩ :=
      Build.exists_blocks_of_expression h.sound hts hrun
    have hnames : Item.names (Row.laid Item.plus segmentItem (Row.head segmentItem t₀) rest) =
        args.flatMap σ.store.takenOver := by
      have hhead : Item.names (Row.head segmentItem t₀) = [] := by
        rw [Row.head]
        split <;> rfl
      rw [Row.names_laid, hhead, List.nil_append]
      exact names_of_forall₂ (hblocks.imp fun _ _ hv => hv.names h.sound)
    refine ⟨_, hholds, hnames, ?_⟩
    rw [← flatMap_takenOver_iff, ← hnames]
    refine ⟨fun hk => hk.live, fun hall => hτ.sound.keepsNames hholds hall fun t ht => ?_⟩
    have hkeeps := h.sound.keeps_of_blocks hblocks (flatMap_takenOver_iff.1 (hnames ▸ hall))
    rcases Row.mem_laid ht with hhead | hplus | ⟨u, hu, hliteral⟩ | ⟨p, hp, hblock⟩
    · have hitem : .text t = segmentItem t₀ := Row.mem_head hhead
      exact Item.text.inj hitem ▸ .literal hts (hsegs t₀ List.mem_cons_self)
    · exact Item.text.inj hplus ▸ .plus
    · exact Item.text.inj hliteral ▸ .literal hts (hsegs u (List.mem_cons_of_mem _ hu))
    · exact nameless_of_keeps hkeeps hp hblock

/-- A name in code, next to a list of texts: once between segments of code,
once joined to a text between literals. -/
theorem keeps_names_beside_list :
    let x : Name := ⟨Text.ofString "x", by decide⟩
    let σ : Session := ⟨⟨#[.fragment (.object ⟨1⟩) (.scalar .null) false, .list [.text []],
      .list [.text "f(", .name x, .text ")"], .dict [(.text "x", .scalar (.int 1))],
      .fragment (.object ⟨2⟩) (.object ⟨3⟩) false, .list [.text "a", .text "b"]]⟩, []⟩
    let args : List Value := [.object ⟨4⟩, .object ⟨5⟩]
    let segments : Segments := .ofStrings ["g(", ", ", ")"]
    ∃ v τ v' τ', (Reachable σ [.object ⟨5⟩, .object ⟨4⟩, nil] ∧
        (∀ w ∈ args, Store.IsGiven [.object ⟨5⟩, .object ⟨4⟩, nil] w) ∧
        segments.AreGiven σ.store [.object ⟨5⟩, .object ⟨4⟩, nil]) ∧
      (Build.code segments args σ = .ok v τ ∧ ∃ xs, τ.store.Holds v xs false ∧
        σ.store.KeepsNames segments args τ.store v xs) ∧
      Build.expression segments args σ = .ok v' τ' ∧ ∃ xs, τ'.store.Holds v' xs true ∧
        σ.store.KeepsNames segments args τ'.store v' xs := by
  intro x σ args segments
  let σ' : Session := ⟨⟨σ.store.objects.extract 0 5⟩, []⟩
  have hcode : Reachable σ' [.object ⟨4⟩, nil] := by
    refine .answered (c := .code (.ofStrings ["f(", ")"]) [.name x]) .start ⟨?_, ?_⟩ rfl
    · simp [Call.args, Store.IsGiven]
    · exact Call.areGiven_ofStrings _ _
  have hreach : Reachable σ [.object ⟨5⟩, .object ⟨4⟩, nil] :=
    .data (o := .list [.text "a", .text "b"]) hcode rfl
  have hargs : ∀ w ∈ args, Store.IsGiven [.object ⟨5⟩, .object ⟨4⟩, nil] w := by
    simp [args, Store.IsGiven]
  have hsegments : segments.AreGiven σ.store [.object ⟨5⟩, .object ⟨4⟩, nil] :=
    Call.areGiven_ofStrings _ _
  have hkeeps := hreach.keeps_names hargs hsegments
  have hrun : Build.code segments args σ = .ok _ _ := rfl
  have hrun' : Build.expression segments args σ = .ok _ _ := rfl
  obtain ⟨xs, hholds, -, hiff⟩ := hkeeps.2 _ _ hrun'
  refine ⟨_, _, _, _, ⟨hreach, hargs, hsegments⟩, ⟨hrun, hkeeps.1 _ _ hrun⟩, hrun', xs, hholds,
    hiff.2 (List.forall_mem_cons.2 ⟨?_, List.forall_mem_singleton.2 ?_⟩)⟩
  · intro ys hys
    cases hys
  · intro ys _
    rfl

/-- **A name in a list becomes text.** A string expression of one name
alone in a list holds the literal of the identifier, and counts nothing. -/
theorem not_keepsNames_listed :
    let x : Name := ⟨Text.ofString "x", by decide⟩
    let σ : Session := ⟨Store.initial.push (.list [.name x]), []⟩
    let args : List Value := [.object ⟨2⟩]
    let segments : Segments := .ofStrings ["", ""]
    ∃ τ, (Reachable σ [.object ⟨2⟩, nil] ∧
        (∀ w ∈ args, Store.IsGiven [.object ⟨2⟩, nil] w) ∧
        segments.AreGiven σ.store [.object ⟨2⟩, nil] ∧
        Build.expression segments args σ = .ok (.object ⟨5⟩) τ) ∧
      σ.store.namesOf (.object ⟨2⟩) = [x] ∧
      τ.store.Holds (.object ⟨5⟩) [.text "\"x\""] true ∧ τ.store.usesOf (.object ⟨5⟩) = .ok [] ∧
      ¬ σ.store.KeepsNames segments args τ.store (.object ⟨5⟩) [.text "\"x\""] := by
  intro x σ args segments
  have hreach : Reachable σ [.object ⟨2⟩, nil] := .data (o := .list [.name x]) .start rfl
  have hnames : σ.store.namesOf (.object ⟨2⟩) = [x] := rfl
  refine ⟨⟨⟨#[.fragment (.object ⟨1⟩) (.scalar .null) false, .list [.text []], .list [.name x],
    .list [.text "\"x\""], .dict [], .fragment (.object ⟨3⟩) (.object ⟨4⟩) true]⟩, []⟩,
    ⟨hreach, ?_, Call.areGiven_ofStrings _ _, rfl⟩, hnames, ?_, rfl, fun hk => ?_⟩
  · simp [args, Store.IsGiven]
  · exact .fragment rfl rfl (.map rfl Usage.isWhole_nil)
  · -- The name of the argument would have to be among the items.
    have hlive := hk.live
    simp [args, hnames] at hlive

end Reachable

end Splice
