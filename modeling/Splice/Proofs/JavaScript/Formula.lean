import Splice.Proofs.JavaScript.Conversion
import Splice.Proofs.Json.Number
import Splice.Proofs.Literal.Confined
/-!
# JavaScript — formulas of variables, numbers and strings

A formula is operands with the operators `+` and `*` between them. Its
text is read in two steps: `lex?` reads the tokens, and `products?` reads
the tokens as a sum of products, since `*` binds its operands more tightly
than `+`. The value of a formula is that of the sum, from the left, of the
products, each from the left (`Arithmetic.formula?`). What a product comes
to is left to the runtime, and it is never a string.

Each operand is read up to its end if no letter or digit comes right after
it (`lex?_name`, `lex?_int`), a literal whatever comes after it
(`lex?_string`), and operators can have blanks around them
(`lex?_operators`). A sum can be cut at any `+`
(`products?_append_plus`), which is what tells the operands of a sum from
those of a product.
-/

namespace Splice

namespace JavaScript

/-! ## Tokens -/

/-- An operand of a formula. -/
inductive Atom
  /-- A variable. -/
  | name (n : Name)
  /-- A whole number. -/
  | int (n : Int)
  /-- A string. -/
  | string (units : List Nat)

/-- A token of a formula. -/
inductive Token
  /-- An operand. -/
  | operand (a : Atom)
  /-- The operator `+`. -/
  | plus
  /-- The operator `*`. -/
  | times

/-- Whether a code point is white space. -/
def isBlank (c : CodePoint) : Bool :=
  c == .char ' ' || c == .char '\t' || c == .char '\n' || c == .char '\r'

/-- The operator that a code point is. -/
def sign? (c : CodePoint) : Option Token :=
  if c = .char '+' then some .plus else if c = .char '*' then some .times else none

/-- The whole number that digits stand for. -/
def wholeNumber (t : Text) : Nat := Nat.ofDigitChars 10 (t.filterMap CodePoint.char?) 0

namespace Atom

/-- What a word is: digits are a number, and an identifier is a variable. -/
def ofWord? (w : Text) : Option Atom :=
  if Json.isWhole w then some (.int (wholeNumber w)) else (Name.ofText? w).map .name

/-- What a word is after a minus sign. -/
def ofNegated? (w : Text) : Option Atom :=
  if Json.isWhole w then some (.int (-wholeNumber w)) else none

/-- The word that a text begins with, and the text behind it. -/
def splitWord (t : Text) : Text × Text :=
  (t.takeWhile CodePoint.isIdentifierPart, t.dropWhile CodePoint.isIdentifierPart)

/-- The operand that a text begins with, and the text behind it. -/
def read? : Text → Option (Atom × Text)
  | [] => none
  | c :: rest =>
    if c = .char '"' then (token? false (c :: rest)).map fun r => (.string r.1, r.2)
    else if c = .char '-' then (ofNegated? (splitWord rest).1).map fun a => (a, (splitWord rest).2)
    else (ofWord? (splitWord (c :: rest)).1).map fun a => (a, (splitWord (c :: rest)).2)

end Atom

/-- The tokens of a text. -/
def lex? : Text → Option (List Token)
  | [] => some []
  | c :: rest =>
    if isBlank c then lex? rest
    else match sign? c with
      | some k => (lex? rest).map (k :: ·)
      | none => match Atom.read? (c :: rest) with
        | none => none
        | some (a, rest') =>
          if rest'.length ≤ rest.length then (lex? rest').map (.operand a :: ·) else none
termination_by t => t.length

/-! ### Reading what is written -/

variable {t rest : Text}

/-- An operand that a text begins with is its first token. -/
theorem lex?_of_read? {c : CodePoint} {a : Atom} (hblank : isBlank c = false)
    (hsign : sign? c = none) (hread : Atom.read? (c :: t ++ rest) = some (a, rest)) :
    lex? (c :: t ++ rest) = (lex? rest).map (.operand a :: ·) := by
  rw [List.cons_append] at hread ⊢
  rw [lex?, hblank, hsign, hread]
  simp

/-- Blanks and operators, in any order. -/
def isOperators (t : Text) : Bool := t.all fun c => isBlank c || (sign? c).isSome

theorem sign?_of_isBlank {c : CodePoint} (h : isBlank c = true) : sign? c = none := by
  unfold sign?
  split
  · subst_vars
    cases h
  · split
    · subst_vars
      cases h
    · rfl

/-- **Blanks and operators** are read as the operators. -/
theorem lex?_operators (h : isOperators t = true) :
    lex? (t ++ rest) = (lex? rest).map (t.filterMap sign? ++ ·) := by
  induction t with
  | nil => simp
  | cons c t ih =>
    rw [isOperators, List.all_cons, Bool.and_eq_true] at h
    obtain ⟨hc, ht⟩ := h
    rw [List.cons_append, lex?]
    cases hblank : isBlank c with
    | true => simp [ih ht, sign?_of_isBlank hblank]
    | false =>
      rw [hblank, Bool.false_or] at hc
      obtain ⟨k, hk⟩ := Option.isSome_iff_exists.1 hc
      simp [hk, ih ht, Function.comp_def]

/-- **A string literal** is read up to its end. -/
theorem lex?_string {us : List Nat} (h : Json.IsString t us) (rest : Text) :
    lex? (t ++ rest) = (lex? rest).map (.operand (.string us) :: ·) := by
  have htoken : token? false (t ++ rest) = some (us, rest) :=
    token?_of_isString h (fun hold => absurd hold (by decide)) rest
  obtain ⟨body, rfl, -⟩ := h
  refine lex?_of_read? (c := .char '"') (t := body ++ [.char '"']) rfl rfl ?_
  rw [List.cons_append, List.cons_append] at htoken
  rw [List.cons_append, Atom.read?, if_pos rfl, htoken]
  rfl

/-- Nothing that could go on with a word comes next. -/
def Ends (rest : Text) : Prop := ∀ c ∈ rest.head?, c.isIdentifierPart = false

theorem splitWord_append {w : Text} (hw : ∀ c ∈ w, c.isIdentifierPart = true) (h : Ends rest) :
    Atom.splitWord (w ++ rest) = (w, rest) := by
  obtain ⟨htake, hdrop⟩ := Json.takeWhile_run hw h
  rw [Atom.splitWord, htake, hdrop]

/-- A word is read as what it is, if nothing that could go on with it comes next. -/
theorem read?_word {c : CodePoint} {w : Text} {a : Atom}
    (hw : ∀ d ∈ c :: w, d.isIdentifierPart = true) (ha : Atom.ofWord? (c :: w) = some a)
    (h : Ends rest) : Atom.read? (c :: w ++ rest) = some (a, rest) := by
  have hsplit := splitWord_append hw h
  have hpart : c.isIdentifierPart = true := hw c (by simp)
  have hquote : c ≠ .char '"' := by rintro rfl; exact absurd hpart (by decide)
  have hminus : c ≠ .char '-' := by rintro rfl; exact absurd hpart (by decide)
  rw [List.cons_append] at hsplit ⊢
  rw [Atom.read?, if_neg hquote, if_neg hminus, hsplit, ha]
  rfl

/-- And so is the number after a minus sign. -/
theorem read?_negated {w : Text} {a : Atom} (hw : ∀ d ∈ w, d.isIdentifierPart = true)
    (ha : Atom.ofNegated? w = some a) (h : Ends rest) :
    Atom.read? (.char '-' :: w ++ rest) = some (a, rest) := by
  have hsplit := splitWord_append hw h
  rw [List.cons_append, Atom.read?, if_neg (by decide), if_pos rfl, hsplit, ha]
  rfl

/-- A part of a word is no blank and no operator. -/
theorem isBlank_of_isIdentifierPart {c : CodePoint} (h : c.isIdentifierPart = true) :
    isBlank c = false ∧ sign? c = none := by
  refine ⟨?_, ?_⟩
  · rw [← Bool.not_eq_true]
    intro hblank
    simp only [isBlank, Bool.or_eq_true, beq_iff_eq] at hblank
    rcases hblank with ((rfl | rfl) | rfl) | rfl <;> exact absurd h (by decide)
  · unfold sign?
    rw [if_neg, if_neg]
    · rintro rfl
      exact absurd h (by decide)
    · rintro rfl
      exact absurd h (by decide)

theorem isIdentifierPart_of_start {c : CodePoint} (h : c.isIdentifierStart = true) :
    c.isIdentifierPart = true := by
  cases c with
  | char c =>
    simp only [CodePoint.isIdentifierStart, CodePoint.isIdentifierPart, Char.isAlphanum,
      Bool.or_eq_true] at h ⊢
    tauto
  | surrogate n => cases h

/-- A name is made of parts of a word. -/
theorem isIdentifierPart_of_mem {n : Name} : ∀ c ∈ n.text, c.isIdentifierPart = true := by
  obtain ⟨t, ht⟩ := n
  cases t with
  | nil => cases ht
  | cons c t =>
    rw [Text.isIdentifier, Bool.and_eq_true, List.all_eq_true] at ht
    exact List.forall_mem_cons.2 ⟨isIdentifierPart_of_start ht.1, ht.2⟩

theorem isIdentifierPart_of_isDecimal {c : CodePoint} (h : c.isDecimal = true) :
    c.isIdentifierPart = true := by
  cases c with
  | char c =>
    simp only [CodePoint.isDecimal, CodePoint.isIdentifierPart, Char.isAlphanum,
      Bool.or_eq_true] at h ⊢
    tauto
  | surrogate n => cases h

/-- The letters come behind the digits. -/
theorem le_toNat_of_isAlpha {c : Char} (h : c.isAlpha = true) : 65 ≤ c.toNat := by
  have hletter : c.isUpper = true ∨ c.isLower = true := Bool.or_eq_true_iff.1 h
  rcases hletter with hupper | hlower
  · exact (of_decide_eq_true hupper).1
  · have hfrom : 97 ≤ c.toNat := of_decide_eq_true (Bool.and_eq_true_iff.1 hlower).1
    omega

/-- A letter is no digit. -/
theorem not_isDecimal_of_start {c : CodePoint} (h : c.isIdentifierStart = true) :
    c.isDecimal = false := by
  cases c with
  | char c =>
    rw [← Bool.not_eq_true]
    intro hdigit
    have hto : c.toNat ≤ 57 := (Char.isDigit_iff_toNat.1 hdigit).2
    simp only [CodePoint.isIdentifierStart, Bool.or_eq_true, beq_iff_eq] at h
    rcases h with (halpha | rfl) | rfl
    · have hfrom := le_toNat_of_isAlpha halpha
      omega
    · exact absurd hdigit (by decide)
    · exact absurd hdigit (by decide)
  | surrogate n => cases h

/-- **A variable** is read up to its end. -/
theorem lex?_name (n : Name) (h : Ends rest) :
    lex? (n.text ++ rest) = (lex? rest).map (.operand (.name n) :: ·) := by
  obtain ⟨t, ht⟩ := n
  cases t with
  | nil => cases ht
  | cons c t =>
    have hident := ht
    rw [Text.isIdentifier, Bool.and_eq_true] at hident
    have hpart : ∀ d ∈ c :: t, d.isIdentifierPart = true :=
      isIdentifierPart_of_mem (n := ⟨c :: t, ht⟩)
    have hwhole : Json.isWhole (c :: t) = false := by
      simp [Json.isWhole, Json.isDigits, not_isDecimal_of_start hident.1]
    have hword : Atom.ofWord? (c :: t) = some (.name ⟨c :: t, ht⟩) := by
      rw [Atom.ofWord?, hwhole, (Name.ofText?_eq_some_iff (n := ⟨c :: t, ht⟩)).2 rfl]
      rfl
    obtain ⟨hblank, hsign⟩ := isBlank_of_isIdentifierPart (hpart c (by simp))
    exact lex?_of_read? hblank hsign (read?_word hpart hword h)

/-- Digits that a whole number is written with stand for it. -/
theorem wholeNumber_ofNat (n : Nat) : wholeNumber (Text.ofNat n) = n := by
  have hchars : (Text.ofNat n).filterMap CodePoint.char? = Nat.toDigits 10 n := by
    rw [Text.ofNat, List.filterMap_map]
    exact List.filterMap_some
  rw [wholeNumber, hchars, Nat.ofDigitChars_toDigits (by decide) (by decide)]

/-- **A whole number** is read up to its end, with its sign. -/
theorem lex?_int (n : Int) (h : Ends rest) :
    lex? (Text.ofInt n ++ rest) = (lex? rest).map (.operand (.int n) :: ·) := by
  have hparts (k : Nat) : ∀ d ∈ Text.ofNat k, d.isIdentifierPart = true := fun d hd =>
    isIdentifierPart_of_isDecimal ((Json.isDigits_iff.1 (Text.isDigits_ofNat k)).2 d hd)
  cases n with
  | ofNat k =>
    have hword : Atom.ofWord? (Text.ofNat k) = some (.int k) := by
      rw [Atom.ofWord?, Text.isWhole_ofNat, wholeNumber_ofNat]
      rfl
    have hpart := hparts k
    rw [Text.ofInt]
    obtain ⟨c, w, hw⟩ := List.exists_cons_of_ne_nil (Json.isDigits_iff.1 (Text.isDigits_ofNat k)).1
    rw [hw] at hword hpart ⊢
    obtain ⟨hblank, hsign⟩ := isBlank_of_isIdentifierPart (hpart c (by simp))
    exact lex?_of_read? hblank hsign (read?_word hpart hword h)
  | negSucc k =>
    have hword : Atom.ofNegated? (Text.ofNat (k + 1)) = some (.int (.negSucc k)) := by
      rw [Atom.ofNegated?, Text.isWhole_ofNat, wholeNumber_ofNat]
      rfl
    exact lex?_of_read? (c := .char '-') rfl rfl (read?_negated (hparts (k + 1)) hword h)

/-! ## Sums of products -/

/-- Tokens as a sum of products. -/
def products? : List Token → Option (List (List Atom))
  | [.operand a] => some [[a]]
  | .operand a :: .plus :: ks => (products? ks).map ([a] :: ·)
  | .operand a :: .times :: ks =>
    match products? ks with
    | some (p :: ps) => some ((a :: p) :: ps)
    | _ => none
  | _ => none

/-- A sum has a product, and each product an operand. -/
theorem products?_ne_nil {ks : List Token} {ps : List (List Atom)} (h : products? ks = some ps) :
    ps ≠ [] ∧ ∀ p ∈ ps, p ≠ [] := by
  fun_induction products? ks generalizing ps with
  | case1 a =>
    cases h
    simp
  | case2 a ks ih =>
    obtain ⟨qs, hqs, rfl⟩ := Option.map_eq_some_iff.1 h
    exact ⟨by simp, List.forall_mem_cons.2 ⟨by simp, (ih hqs).2⟩⟩
  | case3 a ks p ps hks ih =>
    cases h
    exact ⟨by simp, List.forall_mem_cons.2 ⟨by simp, (List.forall_mem_cons.1 (ih hks).2).2⟩⟩
  | case4 a ks hks ih => cases h
  | case5 ks h₁ h₂ h₃ => cases h

/-- **A sum can be cut at any `+`.** -/
theorem products?_append_plus (ks ks' : List Token) :
    products? (ks ++ .plus :: ks') =
      (products? ks).bind fun ps => (products? ks').map fun qs => ps ++ qs := by
  fun_induction products? ks with
  | case1 a => simp [products?]
  | case2 a ks ih =>
    simp only [List.cons_append, products?, ih]
    cases products? ks <;> cases products? ks' <;> rfl
  | case3 a ks p ps hks ih =>
    simp only [List.cons_append, products?, ih, hks]
    cases products? ks' <;> rfl
  | case4 a ks hks ih =>
    simp only [List.cons_append, products?, ih]
    cases hps : products? ks with
    | none => rfl
    | some ps =>
      obtain ⟨p, ps, rfl⟩ := List.exists_cons_of_ne_nil (products?_ne_nil hps).1
      exact (hks p ps hps).elim
  | case5 ks hsingle hplus htimes =>
    match ks with
    | [] => rfl
    | .plus :: ks => rfl
    | .times :: ks => rfl
    | [.operand a] => exact (hsingle a rfl).elim
    | .operand a :: .operand b :: ks => rfl
    | .operand a :: .plus :: ks => exact (hplus a ks rfl).elim
    | .operand a :: .times :: ks => exact (htimes a ks rfl).elim

/-- No two operands are side by side. -/
def Apart (ks : List Token) : Prop := ∀ l a b r, ks ≠ l ++ .operand a :: .operand b :: r

theorem Apart.of_append {ks ks' : List Token} (h : Apart (ks ++ ks')) : Apart ks' :=
  fun l a b r hks => h (ks ++ l) a b r (by simp [hks])

/-- In a sum of products operators stand between operands. -/
theorem apart_of_products? {ks : List Token} {ps : List (List Atom)} (h : products? ks = some ps) :
    Apart ks := by
  have hskip : ∀ {a : Atom} {op : Token} {ks : List Token}, (∀ b, op ≠ .operand b) → Apart ks →
      Apart (.operand a :: op :: ks) := by
    intro a op ks hop hks l b c r hsplit
    match l with
    | [] => exact hop c (by simpa using (List.cons.inj (List.cons.inj hsplit).2).1)
    | [x] => exact hop b (by simpa using (List.cons.inj (List.cons.inj hsplit).2).1)
    | x :: y :: l => exact hks l b c r (List.cons.inj (List.cons.inj hsplit).2).2
  fun_induction products? ks generalizing ps with
  | case1 a =>
    intro l b c r hsplit
    have hlength := congrArg List.length hsplit
    simp only [List.length_append, List.length_cons, List.length_nil] at hlength
    omega
  | case2 a ks ih =>
    obtain ⟨qs, hqs, rfl⟩ := Option.map_eq_some_iff.1 h
    exact hskip nofun (ih hqs)
  | case3 a ks p qs hks ih => exact hskip nofun (ih hks)
  | case4 a ks hks ih => cases h
  | case5 ks h₁ h₂ h₃ => cases h

/-- A sum begins and ends with an operand. -/
theorem exists_ends_of_products? {ks : List Token} {ps : List (List Atom)}
    (h : products? ks = some ps) :
    (∃ a, ks.head? = some (.operand a)) ∧ ∃ a, ks.getLast? = some (.operand a) := by
  have hskip : ∀ {k : Token} {ks : List Token}, (∃ a, ks.getLast? = some (.operand a)) →
      ∃ a, (k :: ks).getLast? = some (.operand a) := by
    rintro k ks ⟨a, ha⟩
    exact ⟨a, by rw [List.getLast?_cons, ha]; rfl⟩
  fun_induction products? ks generalizing ps with
  | case1 a => exact ⟨⟨a, rfl⟩, ⟨a, rfl⟩⟩
  | case2 a ks ih =>
    obtain ⟨qs, hqs, rfl⟩ := Option.map_eq_some_iff.1 h
    exact ⟨⟨a, rfl⟩, hskip (hskip (ih hqs).2)⟩
  | case3 a ks p qs hks ih => exact ⟨⟨a, rfl⟩, hskip (hskip (ih hks).2)⟩
  | case4 a ks hks ih => cases h
  | case5 ks h₁ h₂ h₃ => cases h

/-- **Two summands may be replaced by one**: if no `*` is beside them, the
other products are as they were. -/
theorem products?_merge {l r : List Token} {a b : Atom} {ps : List (List Atom)}
    (hl : l.getLast? ≠ some .times) (hr : r.head? ≠ some .times)
    (h : products? (l ++ .operand a :: .plus :: .operand b :: r) = some ps) (c : Atom) :
    ∃ p q, ps = p ++ [a] :: [b] :: q ∧ products? (l ++ .operand c :: r) = some (p ++ [c] :: q) := by
  have hapart : Apart (l ++ .operand a :: .plus :: .operand b :: r) := apart_of_products? h
  -- Before and after, there is nothing or the operator `+`, and the sum can be cut there.
  obtain ⟨p?, hp⟩ : ∃ p? : Option (List (List Atom)), ∀ ks,
      products? (l ++ ks) = p?.bind fun p => (products? ks).map fun q => p ++ q := by
    rcases List.eq_nil_or_concat l with rfl | ⟨l, k, rfl⟩
    · exact ⟨some [], fun ks => by cases h : products? ks <;> simp [h]⟩
    · cases k with
      | operand d => exact absurd (by simp) (hapart l d a (.plus :: .operand b :: r))
      | plus => exact ⟨products? l, fun ks => by simpa using products?_append_plus l ks⟩
      | times => exact absurd (by simp) hl
  obtain ⟨q?, hq⟩ : ∃ q? : Option (List (List Atom)), ∀ d,
      products? (.operand d :: r) = q?.map fun q => [d] :: q := by
    cases r with
    | nil => exact ⟨some [], fun d => rfl⟩
    | cons k r =>
      cases k with
      | operand d => exact absurd (by simp) (hapart (l ++ [.operand a, .plus]) b d r)
      | plus => exact ⟨products? r, fun d => rfl⟩
      | times => exact absurd (by simp) hr
  rw [hp, products?, hq] at h
  rw [hp, hq]
  cases p? with
  | none => cases h
  | some p =>
    cases q? with
    | none => cases h
    | some q => exact ⟨p, q, (Option.some.inj h).symm, rfl⟩

/-! ## Values -/

/-- A runtime that multiplies, too. A product is no string. -/
structure Arithmetic extends Runtime where
  /-- The product of two values, unless multiplying them throws. -/
  times? : Primitive Other → Primitive Other → Option Other

namespace Arithmetic

/-- A runtime that adds and multiplies integers, and nothing else that is no string. -/
noncomputable def integers : Arithmetic where
  toRuntime := Runtime.integers
  times? := fun (v w : Primitive Scalar) =>
    match v, w with
    | .other (.int m), .other (.int n) => some (.int (m * n) : Scalar)
    | _, _ => none

variable (A : Arithmetic) (E : A.toRuntime.Environment)

/-- The value of an operand. -/
def value : Atom → A.toRuntime.Value
  | .name n => E.names n
  | .int n => .other (A.ofScalar (.int n))
  | .string us => .string us

/-- The value of a product, from the left. -/
def product? : List Atom → Option A.toRuntime.Value
  | [] => none
  | a :: as => as.foldlM (fun v b => (A.times? v (A.value E b)).map .other) (A.value E a)

/-- The value of a text as a formula. -/
def formula? (t : Text) : Option A.toRuntime.Value := do
  let ks ← lex? t
  let ps ← products? ks
  Runtime.total? (A.product? E) ps

/-- The numbers that are summands by themselves are echoed. -/
def EchoesInts (ps : List (List Atom)) : Prop :=
  ∀ n, [.int n] ∈ ps → A.toRuntime.Echoes (.int n)

/-- The texts of products, one after the other. -/
def spelled? (ps : List (List Atom)) : Option (List Nat) :=
  concat? (Runtime.textOf? (A.product? E)) ps

variable {A E}

theorem formula?_of_lex? {t : Text} {ks : List Token} {ps : List (List Atom)}
    (ht : lex? t = some ks) (hks : products? ks = some ps) :
    A.formula? E t = Runtime.total? (A.product? E) ps := by
  rw [formula?, ht]
  exact congrArg (Option.bind · (Runtime.total? (A.product? E))) hks

/-- Two summands with these texts may be replaced by the string of both. -/
theorem spelled?_merge {p q : List (List Atom)} {a b : Atom} {us vs : List Nat}
    (ha : A.toText? (A.value E a) = some us) (hb : A.toText? (A.value E b) = some vs) :
    A.spelled? E (p ++ [.string (us ++ vs)] :: q) = A.spelled? E (p ++ [a] :: [b] :: q) := by
  have hvalue (c : Atom) : Runtime.textOf? (A.product? E) [c] = A.toText? (A.value E c) := rfl
  have hstring : A.toText? (A.value E (.string (us ++ vs))) = some (us ++ vs) := rfl
  simp only [spelled?, concat?_append, concat?, hvalue, ha, hb, hstring, Option.bind_some,
    Option.map_map, Function.comp_def, List.append_assoc]

/-- Behind a string, the products add their texts. -/
theorem total?_string_cons (us : List Nat) (ps : List (List Atom)) :
    Runtime.total? (A.product? E) ([.string us] :: ps) =
      (A.spelled? E ps).map fun vs => .string (us ++ vs) := by
  have hfirst : A.product? E [.string us] = some (.string us) := rfl
  have htext : Runtime.textOf? (A.product? E) [.string us] = some us := rfl
  rw [Runtime.total?_of_string _ hfirst, concat?, htext, spelled?]
  cases concat? (Runtime.textOf? (A.product? E)) ps <;> rfl

end Arithmetic

/-- A sum that joins texts: it is a single product, or the first or second
one is a string alone. -/
def JoinsTexts (ps : List (List Atom)) : Prop :=
  ps.length = 1 ∨ ∃ us, [Atom.string us] ∈ ps.take 2

/-- A sum that joins texts has the texts of its products for its own. -/
theorem JoinsTexts.toText?_total? {ps : List (List Atom)} (h : JoinsTexts ps) (A : Arithmetic)
    (E : A.toRuntime.Environment) :
    (Runtime.total? (A.product? E) ps).bind A.toText? = A.spelled? E ps := by
  have hstring (v? : Option (List Nat)) :
      (v?.map Primitive.string : Option A.toRuntime.Value).bind A.toText? = v? := by
    cases v? <;> rfl
  rcases h with hlength | ⟨us, hus⟩
  · obtain ⟨p, rfl⟩ := List.length_eq_one_iff.1 hlength
    have htotal : Runtime.total? (A.product? E) [p] = A.product? E p := by
      rw [Runtime.total?]
      cases A.product? E p <;> rfl
    rw [htotal, Arithmetic.spelled?, concat?_singleton]
    rfl
  · have hvalue : A.product? E [.string us] = some (.string us) := rfl
    rcases ps with _ | ⟨p, _ | ⟨q, ps⟩⟩
    · cases hus
    · obtain rfl : [.string us] = p := by simpa using hus
      rw [Runtime.total?_of_string _ hvalue, hstring, Arithmetic.spelled?]
    · have hmem : [.string us] = p ∨ [.string us] = q := by simpa using hus
      rcases hmem with rfl | rfl
      · rw [Runtime.total?_of_string _ hvalue, hstring, Arithmetic.spelled?]
      · rw [Runtime.total?_of_string_second _ hvalue, hstring, Arithmetic.spelled?]

/-- A runtime in which every product is null, and which adds strings only. -/
def nullProducts : Arithmetic where
  Other := Scalar
  text? c := some (c.render.toOption.getD []).units
  add? _ _ := none
  ofScalar := id
  times? _ _ := some .null

theorem echoes_nullProducts (c : Scalar) : nullProducts.toRuntime.Echoes c := by
  intro t ht
  change some (c.render.toOption.getD []).units = some t.units
  rw [ht]
  rfl

/-- All variables are null there. -/
def allNulls : nullProducts.toRuntime.Environment where
  names _ := .other .null
  code _ := .other .null

/-- A product is null there, unless it is a single number or string. -/
theorem product?_allNulls {p : List Atom} (hp : p ≠ []) :
    ∃ v, nullProducts.product? allNulls p = some v ∧
      ((∃ us, p = [.string us]) ∨ ∃ c, v = .other c) := by
  have hfold : ∀ (as : List Atom) (c : Scalar),
      ∃ d, as.foldlM (fun v b => (nullProducts.times? v (nullProducts.value allNulls b)).map
        Primitive.other) (.other c) = some (.other d) := by
    intro as
    induction as with
    | nil => exact fun c => ⟨c, rfl⟩
    | cons a as ih => exact fun c => ih .null
  obtain ⟨a, as, rfl⟩ := List.exists_cons_of_ne_nil hp
  cases as with
  | nil =>
    cases a with
    | name n => exact ⟨_, rfl, .inr ⟨_, rfl⟩⟩
    | int n => exact ⟨_, rfl, .inr ⟨_, rfl⟩⟩
    | string us => exact ⟨_, rfl, .inl ⟨us, rfl⟩⟩
  | cons b as =>
    obtain ⟨d, hd⟩ := hfold as .null
    exact ⟨_, hd, .inr ⟨d, rfl⟩⟩

theorem exists_spelled?_allNulls {ps : List (List Atom)} (hps : ∀ p ∈ ps, p ≠ []) :
    ∃ us, nullProducts.spelled? allNulls ps = some us := by
  induction ps with
  | nil => exact ⟨[], rfl⟩
  | cons p ps ih =>
    obtain ⟨hp, hps⟩ := List.forall_mem_cons.1 hps
    obtain ⟨v, hv, -⟩ := product?_allNulls hp
    obtain ⟨vs, hvs⟩ := ih hps
    obtain ⟨us, hus⟩ : ∃ us, nullProducts.toText? v = some us := by
      cases v with
      | string us => exact ⟨us, rfl⟩
      | other c => exact ⟨_, rfl⟩
    refine ⟨us ++ vs, ?_⟩
    rw [Arithmetic.spelled?] at hvs ⊢
    rw [concat?, Runtime.textOf?, hv, Option.bind_some, hus, hvs]
    rfl

/-- **When a sum of products has their texts for its own**, whatever the
runtime makes of sums and products that are no strings: exactly if it joins
texts from the start. -/
theorem joinsTexts_iff {ps : List (List Atom)} (hne : ps ≠ []) (hps : ∀ p ∈ ps, p ≠ []) :
    (∀ (A : Arithmetic) (E : A.toRuntime.Environment), (∀ c, A.toRuntime.Echoes c) →
      A.spelled? E ps = (Runtime.total? (A.product? E) ps).bind A.toText?) ↔ JoinsTexts ps := by
  refine ⟨fun hsame => ?_, fun h A E _ => (h.toText?_total? A E).symm⟩
  by_contra hnot
  obtain ⟨us, hus⟩ := exists_spelled?_allNulls hps
  have hsum := (hsame nullProducts allNulls echoes_nullProducts).symm.trans hus
  match ps with
  | [] => exact hne rfl
  | [p] => exact hnot (.inl rfl)
  | p :: q :: ps =>
    -- Neither of the first two products is a string, so there is no sum of them.
    obtain ⟨v, hv, hp⟩ := product?_allNulls (hps p (by simp))
    obtain ⟨w, hw, hq⟩ := product?_allNulls (hps q (by simp))
    rcases hp with ⟨vs, rfl⟩ | ⟨c, rfl⟩
    · exact hnot (.inr ⟨vs, by simp⟩)
    rcases hq with ⟨vs, rfl⟩ | ⟨d, rfl⟩
    · exact hnot (.inr ⟨vs, by simp⟩)
    rw [Runtime.total?_eq_none _ hv hw rfl] at hsum
    cases hsum

end JavaScript

end Splice
