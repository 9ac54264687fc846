import Splice.Proofs.Json.Quoted
/-!
# JavaScript — string literals between double quotes

`StringLiteral.read` reads the rest of a JavaScript string literal after
its opening quote: the UTF-16 code units it stands for, and the text after
its closing quote. It is an automaton over code points that knows every
escape of the language: letters and signs, two and four hexadecimal
digits, a number in braces, the null character and continued lines. In
older grammars the separators U+2028 and U+2029 end a line, which a
literal may not contain; newer ones allow them, and a flag tells the two
apart.

What stands between the quotes of a JSON string is read as what it stands
for there (`read_content`), so JSON strings are literals with the same
value (`stringValue?_of_isString`).
-/

namespace Splice

namespace JavaScript

/-- Whether a code point ends a line; in older grammars U+2028 and U+2029
do. -/
def endsLine (old : Bool) (c : CodePoint) : Bool :=
  c == .char '\n' || c == .char '\r' || (old && (c.toNat == 0x2028 || c.toNat == 0x2029))

namespace StringLiteral

/-- Where in a string literal the reader is. -/
inductive Place
  /-- Between characters. -/
  | between
  /-- After a backslash. -/
  | escape
  /-- After the escape of the null character, which no digit may follow. -/
  | null
  /-- After a backslash and a carriage return, which a line feed may follow. -/
  | carriage
  /-- Where so many hexadecimal digits are still to come. -/
  | digits (left value : Nat)
  /-- After the letter that begins an escape by number. -/
  | number
  /-- In braces; there is a value once there is a digit. -/
  | braces (value? : Option Nat)
deriving DecidableEq, Repr

/-- What a code point does. -/
inductive Action
  /-- The literal ends. -/
  | close
  /-- Code units have been read, and the reader moves on. -/
  | go (units : List Nat) (place : Place)
deriving DecidableEq, Repr

/-- A code point between characters. -/
def plainly (old : Bool) (c : CodePoint) : Option Action :=
  if c = .char '"' then some .close
  else if c = .char '\\' then some (.go [] .escape)
  else if endsLine old c then none
  else some (.go c.units .between)

/-- A hexadecimal digit of which so many are still to come. -/
def digit (left value : Nat) (c : CodePoint) : Option Action :=
  match c.hexAfter? value with
  | none => none
  | some n => if left ≤ 1 then some (.go [n] .between) else some (.go [] (.digits (left - 1) n))

/-- A code point after a backslash. A code point that begins no escape
stands for itself. -/
def escaped (c : CodePoint) : Option Action :=
  if c = .char 'b' then some (.go [0x08] .between)
  else if c = .char 't' then some (.go [0x09] .between)
  else if c = .char 'n' then some (.go [0x0A] .between)
  else if c = .char 'v' then some (.go [0x0B] .between)
  else if c = .char 'f' then some (.go [0x0C] .between)
  else if c = .char 'r' then some (.go [0x0D] .between)
  else if c = .char '0' then some (.go [0] .null)
  else if c.isDecimal then none
  else if c = .char 'x' then some (.go [] (.digits 2 0))
  else if c = .char 'u' then some (.go [] .number)
  else if c = .char '\r' then some (.go [] .carriage)
  else if endsLine true c then some (.go [] .between)
  else some (.go c.units .between)

/-- A code point in braces. The number has to be that of a code point. -/
def inBraces (value? : Option Nat) (c : CodePoint) : Option Action :=
  if c = .char '\x7d' then do
    let n ← value?
    let d ← CodePoint.ofNat? n
    return .go d.units .between
  else do
    let n ← c.hexAfter? (value?.getD 0)
    return .go [] (.braces (some n))

/-- What a code point does at a place. -/
def step (old : Bool) : Place → CodePoint → Option Action
  | .between, c => plainly old c
  | .escape, c => escaped c
  | .null, c => if c.isDecimal then none else plainly old c
  | .carriage, c => if c = .char '\n' then some (.go [] .between) else plainly old c
  | .digits left value, c => digit left value c
  | .number, c => if c = .char '\x7b' then some (.go [] (.braces none)) else digit 4 0 c
  | .braces value?, c => inBraces value? c

/-- The code units of the rest of a literal, and the text after it. -/
def read (old : Bool) : Place → Text → Option (List Nat × Text)
  | _, [] => none
  | p, c :: rest => match step old p c with
    | none => none
    | some .close => some ([], rest)
    | some (.go us q) => (read old q rest).map fun r => (us ++ r.1, r.2)

/-- The reading with code units before it. -/
def after (us : List Nat) (r? : Option (List Nat × Text)) : Option (List Nat × Text) :=
  r?.map fun r => (us ++ r.1, r.2)

@[simp] theorem after_nil (r? : Option (List Nat × Text)) : after [] r? = r? := by
  cases r? <;> rfl

theorem after_append (us vs : List Nat) (r? : Option (List Nat × Text)) :
    after (us ++ vs) r? = after us (after vs r?) := by
  cases r? with
  | none => rfl
  | some r => simp [after]

theorem read_go {old : Bool} {p q : Place} {c : CodePoint} {us : List Nat}
    (h : step old p c = some (.go us q)) (rest : Text) :
    read old p (c :: rest) = after us (read old q rest) := by
  rw [read, h]
  rfl

/-! ## JSON strings are read as what they stand for -/

/-- Digits that are all there give the number that they stand for. -/
theorem read_digits {old : Bool} {ds : Text} {u : Nat} (rest : Text) :
    ∀ {value : Nat}, ds ≠ [] → ds.foldlM CodePoint.hexAfter? value = some u →
      read old (.digits ds.length value) (ds ++ rest) = after [u] (read old .between rest) := by
  induction ds with
  | nil => exact fun h => absurd rfl h
  | cons d ds ih =>
    intro value _ h
    rw [List.foldlM_cons] at h
    obtain ⟨n, hd, h⟩ := Option.bind_eq_some_iff.1 h
    cases ds with
    | nil =>
      cases h
      exact read_go (by simp [step, digit, hd]) rest
    | cons d' ds =>
      have hgo : step old (.digits (d :: d' :: ds).length value) d
          = some (.go [] (.digits (d' :: ds).length n)) := by
        simp [step, digit, hd]
      rw [List.cons_append, read_go hgo, after_nil]
      exact ih (by simp) h

/-- An escape of JSON by one letter or sign is an escape here, for the
same code unit. -/
theorem escaped_of_shortEscape? {c : CodePoint} {u : Nat} (h : Json.shortEscape? c = some u) :
    escaped c = some (.go [u] .between) := by
  unfold Json.shortEscape? at h
  split_ifs at h <;> subst_vars <;> cases h <;> decide

/-- The first of four digits is not an opening brace. -/
theorem step_number {old : Bool} {c : CodePoint} {n : Nat} (h : c.hexAfter? 0 = some n) :
    step old .number c = step old (.digits 4 0) c := by
  have hc : c ≠ .char '\x7b' := by
    rintro rfl
    cases h
  simp only [step, if_neg hc]

theorem read_number {old : Bool} {ds : Text} {u : Nat} (hlen : ds.length = 4)
    (h : ds.hexNumber? = some u) (rest : Text) :
    read old .number (ds ++ rest) = after [u] (read old .between rest) := by
  have hread : read old (.digits ds.length 0) (ds ++ rest) = after [u] (read old .between rest) :=
    read_digits rest (List.ne_nil_of_length_eq_add_one hlen) h
  rw [hlen] at hread
  cases ds with
  | nil => cases hlen
  | cons d ds =>
    rw [Text.hexNumber?, List.foldlM_cons] at h
    obtain ⟨n, hd, -⟩ := Option.bind_eq_some_iff.1 h
    rw [← hread, List.cons_append, read, read, step_number hd]

/-- **The content of a JSON string is read as what it stands for.** In
older grammars it may not hold the separators that end a line. -/
theorem read_content {old : Bool} {body : Text} {us : List Nat} (h : Json.Content body us)
    (hold : old = true → ∀ c ∈ body, c.isBarred = false) (rest : Text) :
    read old .between (body ++ rest) = after us (read old .between rest) := by
  induction h with
  | nil => exact (after_nil _).symm
  | @itself c t us hquote hslash hcontrol _ ih =>
    -- JSON keeps no line feed as it is, but the two separators it does keep.
    have hline : endsLine old c = false := by
      have hfeed : c ≠ .char '\n' := by rintro rfl; exact absurd hcontrol (by decide)
      have hreturn : c ≠ .char '\r' := by rintro rfl; exact absurd hcontrol (by decide)
      cases old with
      | false => simp [endsLine, hfeed, hreturn]
      | true =>
        have hbarred := hold rfl c List.mem_cons_self
        simp only [CodePoint.isBarred, Bool.or_eq_false_iff] at hbarred
        simp [endsLine, hfeed, hreturn, hbarred.1]
    have hgo : step old .between c = some (.go c.units .between) := by
      simp [step, plainly, hquote, hslash, hline]
    rw [List.cons_append, read_go hgo, ih fun ho d hd => hold ho d (List.mem_cons_of_mem _ hd),
      after_append]
  | @short c u t us hc _ ih =>
    have hslash : step old .between (.char '\\') = some (.go [] .escape) := rfl
    have hgo : step old .escape c = some (.go [u] .between) := escaped_of_shortEscape? hc
    rw [List.cons_append, List.cons_append, read_go hslash, read_go hgo, after_nil,
      ih fun ho d hd => hold ho d (List.mem_cons_of_mem _ (List.mem_cons_of_mem _ hd)),
      ← after_append]
    rfl
  | @numbered ds u t us hlen hn _ ih =>
    have hslash : step old .between (.char '\\') = some (.go [] .escape) := rfl
    have hletter : step old .escape (.char 'u') = some (.go [] .number) := rfl
    rw [List.cons_append, List.cons_append, read_go hslash, read_go hletter, after_nil, after_nil,
      List.append_assoc, read_number hlen hn,
      ih fun ho d hd => hold ho d (by simp [hd]), ← after_append]
    rfl

end StringLiteral

/-- The code units that a text stands for as a string literal, if it is one
from its first quote to its end. -/
def stringValue? : Text → Option (List Nat)
  | [] => none
  | c :: rest =>
    if c = .char '"' then
      match StringLiteral.read false .between rest with
      | some (us, []) => some us
      | _ => none
    else none

/-- **A JSON string is a string literal with the same value.** -/
theorem stringValue?_of_isString {t : Text} {us : List Nat} (h : Json.IsString t us) :
    stringValue? t = some us := by
  obtain ⟨body, rfl, hbody⟩ := h
  have hclose : StringLiteral.read false .between [.char '"'] = some ([], []) := rfl
  rw [List.cons_append, stringValue?, if_pos rfl,
    StringLiteral.read_content hbody (fun h => absurd h (by decide)), hclose]
  simp [StringLiteral.after]

end JavaScript

/-- A text is a JSON string with one value only. -/
theorem Json.IsString.unique {t : Text} {us vs : List Nat} (h : IsString t us)
    (h' : IsString t vs) : us = vs :=
  Option.some.inj
    ((JavaScript.stringValue?_of_isString h).symm.trans (JavaScript.stringValue?_of_isString h'))

end Splice
