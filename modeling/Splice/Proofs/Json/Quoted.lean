import Splice.Proofs.Plain
/-!
# JSON — what stands between double quotes

`Json.Content` is the grammar of the content of a JSON string, with the
UTF-16 code units that it stands for: code points other than the quote,
the backslash and the control characters stand for themselves, and a
backslash begins an escape. `Json.IsString` puts the quotes around it.

Contents can be put one after the other (`Content.append`), which is what
merging two literals at their seam does (`IsString.seam`), and plain text
is a content that stands for itself (`Content.of_plain`). A text as a
literal, after both passes of the encoder, is a JSON string that stands
for the text (`Text.isString_literal`).
-/

namespace Splice

/-! ## Hexadecimal digits -/

/-- The value of a hexadecimal digit, in either case. -/
def CodePoint.hexValue? : CodePoint → Option Nat
  | .char c =>
    if 48 ≤ c.toNat ∧ c.toNat ≤ 57 then some (c.toNat - 48)
    else if 97 ≤ c.toNat ∧ c.toNat ≤ 102 then some (c.toNat - 87)
    else if 65 ≤ c.toNat ∧ c.toNat ≤ 70 then some (c.toNat - 55)
    else none
  | .surrogate _ => none

/-- The number that `n` becomes when a hexadecimal digit is added at its end. -/
def CodePoint.hexAfter? (n : Nat) (c : CodePoint) : Option Nat := c.hexValue?.map (16 * n + ·)

/-- The number that hexadecimal digits stand for. -/
def Text.hexNumber? (ds : Text) : Option Nat := ds.foldlM CodePoint.hexAfter? 0

/-- Every digit that is written is the character of a number below the base. -/
theorem exists_digitChar_of_mem_toDigits {b : Nat} (hb : 1 < b) {c : Char} (n : Nat)
    (h : c ∈ Nat.toDigits b n) : ∃ k < b, c = k.digitChar := by
  induction n using Nat.strongRecOn with
  | ind n ih =>
    rw [Nat.toDigits_eq_if hb] at h
    split at h
    · rw [List.mem_singleton] at h
      exact ⟨n, by assumption, h⟩
    · rcases List.mem_append.1 h with h | h
      · exact ih (n / b) (Nat.div_lt_self (by omega) hb) h
      · rw [List.mem_singleton] at h
        exact ⟨n % b, Nat.mod_lt _ (by omega), h⟩

theorem hexValue?_digitChar : ∀ k < 16, (CodePoint.char k.digitChar).hexValue? = some k := by
  decide

theorem isPlain_digitChar : ∀ k < 16, (CodePoint.char k.digitChar).isPlain = true := by decide

namespace Text

theorem hexNumber?_toDigits (n : Nat) :
    hexNumber? ((Nat.toDigits 16 n).map .char) = some n := by
  induction n using Nat.strongRecOn with
  | ind n ih =>
    rw [Nat.toDigits_eq_if (by decide)]
    split
    · rename_i h
      simp [hexNumber?, CodePoint.hexAfter?, hexValue?_digitChar n h]
    · have hmod : n % 16 < 16 := Nat.mod_lt _ (by decide)
      have ih := ih (n / 16) (Nat.div_lt_self (by omega) (by decide))
      rw [hexNumber?] at ih
      simp only [hexNumber?, List.map_append, List.foldlM_append, ih, List.map_cons, List.map_nil,
        CodePoint.hexAfter?, List.foldlM_cons, List.foldlM_nil, hexValue?_digitChar _ hmod]
      exact congrArg some (Nat.div_add_mod n 16)

/-- Zeros before the digits do not count. -/
theorem hexNumber?_hex (width n : Nat) : hexNumber? (hex width n) = some n := by
  have hzeros : ∀ k, (List.replicate k (CodePoint.char '0')).foldlM CodePoint.hexAfter? 0
      = some 0 := by
    intro k
    induction k with
    | zero => rfl
    | succ k ih =>
      rw [List.replicate_succ, List.foldlM_cons]
      exact ih
  simp only [hexNumber?, hex, List.map_append, List.map_replicate, List.foldlM_append, hzeros]
  exact hexNumber?_toDigits n

theorem length_hex {width n : Nat} (hw : 0 < width) (h : n < 16 ^ width) :
    (hex width n).length = width := by
  have hle := (Nat.length_toDigits_le_iff (by decide : 1 < 16) hw).2 h
  simp only [hex, List.length_map, List.length_append, List.length_replicate]
  omega

theorem isPlain_hex (width n : Nat) : IsPlain (hex width n) := by
  intro c hc
  simp only [hex, List.map_append, List.map_replicate, List.mem_append, List.mem_map] at hc
  rcases hc with hc | ⟨d, hd, rfl⟩
  · rw [List.eq_of_mem_replicate hc]
    decide
  · obtain ⟨k, hk, rfl⟩ := exists_digitChar_of_mem_toDigits (by decide) n hd
    exact isPlain_digitChar k hk

end Text

namespace Json

/-! ## The grammar -/

/-- The code unit that a code point stands for after a backslash. -/
def shortEscape? (c : CodePoint) : Option Nat :=
  if c = .char '"' then some 0x22
  else if c = .char '\\' then some 0x5C
  else if c = .char '/' then some 0x2F
  else if c = .char 'b' then some 0x08
  else if c = .char 'f' then some 0x0C
  else if c = .char 'n' then some 0x0A
  else if c = .char 'r' then some 0x0D
  else if c = .char 't' then some 0x09
  else none

/-- The content of a JSON string, with the UTF-16 code units that it
stands for. -/
inductive Content : Text → List Nat → Prop
  /-- Nothing. -/
  | nil : Content [] []
  /-- A code point that stands for itself. -/
  | itself {c : CodePoint} {t : Text} {us : List Nat} :
      c ≠ .char '"' → c ≠ .char '\\' → 0x20 ≤ c.toNat → Content t us →
      Content (c :: t) (c.units ++ us)
  /-- An escape by one letter or sign. -/
  | short {c : CodePoint} {u : Nat} {t : Text} {us : List Nat} :
      shortEscape? c = some u → Content t us → Content (.char '\\' :: c :: t) (u :: us)
  /-- An escape by the number of a code unit. -/
  | numbered {ds : Text} {u : Nat} {t : Text} {us : List Nat} :
      ds.length = 4 → ds.hexNumber? = some u → Content t us →
      Content (.char '\\' :: .char 'u' :: (ds ++ t)) (u :: us)

/-- A JSON string, with the UTF-16 code units that it stands for. -/
def IsString (t : Text) (us : List Nat) : Prop :=
  ∃ body, t = .char '"' :: body ++ [.char '"'] ∧ Content body us

namespace Content

variable {t u : Text} {us vs : List Nat}

theorem append (h : Content t us) (h' : Content u vs) : Content (t ++ u) (us ++ vs) := by
  induction h with
  | nil => exact h'
  | itself hquote hslash hcontrol _ ih =>
    rw [List.append_assoc]
    exact itself hquote hslash hcontrol ih
  | short hc _ ih => exact short hc ih
  | numbered hlen hn _ ih =>
    simp only [List.cons_append, List.append_assoc]
    exact numbered hlen hn ih

/-- **Plain text stands for itself.** -/
theorem of_plain (h : t.IsPlain) : Content t t.units := by
  induction t with
  | nil => exact nil
  | cons c t ih =>
    rw [Text.isPlain_cons] at h
    exact itself (CodePoint.ne_quote_of_isPlain h.1) (CodePoint.ne_backslash_of_isPlain h.1)
      (CodePoint.toNat_of_isPlain h.1).1 (ih h.2)

/-- The escape of a code point by its number stands for the code point. -/
theorem of_numbered {c : CodePoint} (h : c.toNat < 0x10000) : Content c.numbered c.units := by
  rw [CodePoint.units_of_lt h]
  have hds : (Text.hex 4 c.toNat).length = 4 := Text.length_hex (by decide) h
  have hnumber : (Text.hex 4 c.toNat).hexNumber? = some c.toNat := Text.hexNumber?_hex 4 _
  have hcontent := numbered hds hnumber nil
  rwa [List.append_nil] at hcontent

end Content

namespace IsString

variable {a b t : Text} {us vs : List Nat}

theorem dropLast_quoted (body : Text) :
    (.char '"' :: body ++ [.char '"'] : Text).dropLast = .char '"' :: body :=
  List.dropLast_concat

theorem startsQuoted (h : IsString a us) : a.startsQuoted = true := by
  obtain ⟨body, rfl, -⟩ := h
  rfl

theorem endsQuoted (h : IsString a us) : a.endsQuoted = true := by
  obtain ⟨body, rfl, -⟩ := h
  rw [Text.endsQuoted, List.getLast?_concat]
  rfl

/-- Two strings joined at their seam are one. -/
theorem seam (ha : IsString a us) (hb : IsString b vs) :
    IsString (a.dropLast ++ b.tail) (us ++ vs) := by
  obtain ⟨body, rfl, hbody⟩ := ha
  obtain ⟨body', rfl, hbody'⟩ := hb
  refine ⟨body ++ body', ?_, hbody.append hbody'⟩
  rw [dropLast_quoted]
  simp

/-- A string takes in what comes after it. -/
theorem absorb_right (ha : IsString a us) (ht : Content t vs) :
    IsString (a.dropLast ++ t ++ [.char '"']) (us ++ vs) := by
  obtain ⟨body, rfl, hbody⟩ := ha
  refine ⟨body ++ t, ?_, hbody.append ht⟩
  rw [dropLast_quoted]
  simp

/-- A string takes in what comes before it. -/
theorem absorb_left (ht : Content t vs) (ha : IsString a us) :
    IsString (.char '"' :: t ++ a.tail) (vs ++ us) := by
  obtain ⟨body, rfl, hbody⟩ := ha
  refine ⟨t ++ body, ?_, ht.append hbody⟩
  simp

end IsString

end Json

/-! ## Texts as literals -/

/-- A barred code point has a number of four hexadecimal digits. -/
theorem CodePoint.lt_of_isBarred {c : CodePoint} (h : c.isBarred = true) : c.toNat < 0x10000 := by
  cases c with
  | char c =>
    simp only [isBarred, isSurrogate, Bool.or_false, Bool.or_eq_true, beq_iff_eq] at h
    omega
  | surrogate n =>
    rw [toNat]
    omega

/-- The second pass leaves an escape by number alone. -/
theorem CodePoint.cleared_numbered (c : CodePoint) : Text.cleared c.numbered = c.numbered := by
  have hmark : Text.cleared (Text.ofString "\\u") = Text.ofString "\\u" := by decide
  rw [numbered, Text.cleared_append, hmark, (Text.isPlain_hex 4 _).cleared]

/-- What both passes of the encoder make of one code point stands for it. -/
theorem CodePoint.content_cleared_escaped (c : CodePoint) :
    Json.Content (Text.cleared c.escaped) c.units := by
  have short : ∀ e u : Char, (CodePoint.char e).toNat < 0x80 → (CodePoint.char u).toNat < 0x10000 →
      Json.shortEscape? e = some u.toNat →
      Json.Content (Text.cleared [.char '\\', .char e]) (CodePoint.char u).units := by
    intro e u he hu h
    rw [Text.cleared, List.flatMap_cons, List.flatMap_cons, cleared, cleared,
      not_barred_of_lt (by decide), not_barred_of_lt he, units_of_lt hu]
    exact .short h .nil
  -- Escapes are in ASCII, so the second pass changes nothing but code points that were kept.
  unfold escaped
  split_ifs with h₁ h₂ h₃ h₄ h₅ h₆ h₇ h₈
  · subst h₁
    exact short '"' '"' (by decide) (by decide) rfl
  · subst h₂
    exact short '\\' '\\' (by decide) (by decide) rfl
  · subst h₃
    exact short 'n' '\n' (by decide) (by decide) rfl
  · subst h₄
    exact short 'r' '\r' (by decide) (by decide) rfl
  · subst h₅
    exact short 't' '\t' (by decide) (by decide) rfl
  · subst h₆
    exact short 'b' '\x08' (by decide) (by decide) rfl
  · subst h₇
    exact short 'f' '\x0c' (by decide) (by decide) rfl
  · rw [cleared_numbered]
    exact .of_numbered (by omega)
  · rw [Text.cleared, List.flatMap_singleton, cleared]
    split
    · exact .of_numbered (lt_of_isBarred (by assumption))
    · rw [← List.append_nil c.units]
      exact .itself h₁ h₂ (by omega) .nil

namespace Text

/-- **The two passes of the encoder on a text.** The second pass finds
nothing to escape outside of what the first has put between the quotes,
and leaves every escape of the first alone. -/
theorem literal_eq (t : Text) :
    t.literal = .char '"' :: t.flatMap (fun c => cleared c.escaped) ++ [.char '"'] := by
  have hquote : Text.cleared [.char '"'] = [.char '"'] := by decide
  rw [literal, encoded, cleared_append, ← List.singleton_append, cleared_append, hquote]
  rw [cleared, List.flatMap_assoc]
  rfl

/-- **A text as a literal is a JSON string that stands for the text.** -/
theorem isString_literal (t : Text) : Json.IsString t.literal t.units := by
  refine ⟨_, t.literal_eq, ?_⟩
  induction t with
  | nil => exact .nil
  | cons c t ih => exact c.content_cleared_escaped.append ih

/-- The number of the code point that is escaped, without the backslash. -/
def escapedNumber? : Text → Option Nat
  | [] => none
  | c :: t => if c = .char 'u' then hexNumber? (t.take 4) else Json.shortEscape? c

/-- The number of the code point that the content of a literal begins with. -/
def firstNumber? : Text → Option Nat
  | [] => none
  | c :: t => if c = .char '\\' then escapedNumber? t else some c.toNat

theorem firstNumber?_numbered {c : CodePoint} (h : c.toNat < 0x10000) (t : Text) :
    firstNumber? (c.numbered ++ t) = some c.toNat := by
  have htake : (hex 4 c.toNat ++ t).take 4 = hex 4 c.toNat :=
    List.take_left' (length_hex (by decide) h)
  have hnumbered : c.numbered ++ t = .char '\\' :: .char 'u' :: (hex 4 c.toNat ++ t) := rfl
  rw [hnumbered, firstNumber?, if_pos rfl, escapedNumber?, if_pos rfl, htake, hexNumber?_hex]

/-- What is written for a code point tells which one it is. -/
theorem firstNumber?_cleared_escaped (c : CodePoint) (t : Text) :
    firstNumber? (cleared c.escaped ++ t) = some c.toNat := by
  unfold CodePoint.escaped
  split_ifs with h₁ h₂ h₃ h₄ h₅ h₆ h₇ h₈
  iterate 7 · subst_vars; rfl
  · rw [CodePoint.cleared_numbered]
    exact firstNumber?_numbered (by omega) t
  · rw [cleared, List.flatMap_singleton, CodePoint.cleared]
    split
    · exact firstNumber?_numbered (CodePoint.lt_of_isBarred (by assumption)) t
    · rw [List.singleton_append, firstNumber?, if_neg h₂]

/-- **Different texts have different literals**, also where they stand for
the same code units. -/
theorem literal_injective : Function.Injective literal := by
  intro t u h
  rw [literal_eq, literal_eq, List.cons_append, List.cons_append] at h
  have hcontent := List.append_cancel_right (List.cons.inj h).2
  clear h
  induction t generalizing u with
  | nil => cases u with
    | nil => rfl
    | cons d u =>
      have hfirst := congrArg firstNumber? hcontent
      rw [List.flatMap_cons, firstNumber?_cleared_escaped] at hfirst
      cases hfirst
  | cons c t ih => cases u with
    | nil =>
      have hfirst := congrArg firstNumber? hcontent
      rw [List.flatMap_cons, firstNumber?_cleared_escaped] at hfirst
      cases hfirst
    | cons d u =>
      have hfirst := congrArg firstNumber? hcontent
      rw [List.flatMap_cons, List.flatMap_cons, firstNumber?_cleared_escaped,
        firstNumber?_cleared_escaped] at hfirst
      obtain rfl := CodePoint.toNat_injective (Option.some.inj hfirst)
      rw [ih (List.append_cancel_left hcontent)]

end Text

end Splice
