import Splice.Proofs.Json.Quoted
import Splice.Proofs.Json.Number
import Mathlib.Data.List.Forall2
/-!
# JSON — a reader

`Json.read` reads a whole text as one JSON document without blanks. It is
an automaton over code points with a stack of the containers that are
open. Numbers are kept as the texts that they are written as, strings as
UTF-16 code units, and the entries of an object in their order, equal keys
included.

A text that is read as a value by itself is read as that value inside of
any document, and this is what `Reads` says: from where a value is
expected, whatever containers are open, the reader gets to where the value
has been read. What ends a number is only seen behind it, so the reader
may still have to settle then. Strings, words, arrays and objects are put
together from what they are made of (`Reads.string`, `Reads.number`,
`Reads.array`, `Reads.object`).
-/

namespace Splice

/-- A JSON value. -/
inductive Json
  | null
  | bool (b : Bool)
  /-- A number, as it is written. -/
  | number (t : Text)
  /-- A string, as UTF-16 code units. -/
  | string (units : List Nat)
  | array (items : List Json)
  /-- An object, as its entries in order. -/
  | object (entries : List (List Nat × Json))

namespace Json

/-! ## The reader -/

/-- Where between the quotes of a string the reader is. -/
inductive Spot
  /-- Between characters. -/
  | between
  /-- After a backslash. -/
  | escape
  /-- Where so many hexadecimal digits are still to come. -/
  | digits (left value : Nat)

/-- Where in a document the reader is. -/
inductive Place
  /-- Before a value. -/
  | value
  /-- Before the first value of an array, or its end. -/
  | first
  /-- Before the first key of an object, or its end. -/
  | entry
  /-- Before a further key. -/
  | key
  /-- After a key. -/
  | colon
  /-- In a word or a number. -/
  | word (t : Text)
  /-- In a string, which may be a key. -/
  | string (isKey : Bool) (units : List Nat) (spot : Spot)
  /-- After a value. -/
  | after (j : Json)

/-- A container that is open. -/
inductive Frame
  /-- An array, with the items so far. -/
  | array (items : List Json)
  /-- An object, with the entries so far. -/
  | object (entries : List (List Nat × Json))
  /-- A key whose value is still to come. -/
  | key (units : List Nat)

/-- The place of the reader, and what is open there. -/
structure State where
  /-- The place. -/
  place : Place
  /-- The open containers, innermost first. -/
  stack : List Frame

/-- The value of a word. -/
def wordValue? (t : Text) : Option Json :=
  if t = Text.ofString "null" then some .null
  else if t = Text.ofString "true" then some (.bool true)
  else if t = Text.ofString "false" then some (.bool false)
  else if isNumber t then some (.number t)
  else none

/-- Whether a code point may stand behind a value. -/
def isDelimiter (c : CodePoint) : Bool := c == .char ',' || c == .char ']' || c == .char '\x7d'

/-- The first code point of a value. -/
def opening (c : CodePoint) (stack : List Frame) : State :=
  if c = .char '"' then ⟨.string false [] .between, stack⟩
  else if c = .char '[' then ⟨.first, .array [] :: stack⟩
  else if c = .char '\x7b' then ⟨.entry, .object [] :: stack⟩
  else ⟨.word [c], stack⟩

/-- The first code point behind a value. -/
def closing (j : Json) (c : CodePoint) : List Frame → Option State
  | .array items :: stack =>
    if c = .char ',' then some ⟨.value, .array (items ++ [j]) :: stack⟩
    else if c = .char ']' then some ⟨.after (.array (items ++ [j])), stack⟩
    else none
  | .key units :: .object entries :: stack =>
    if c = .char ',' then some ⟨.key, .object (entries ++ [(units, j)]) :: stack⟩
    else if c = .char '\x7d' then some ⟨.after (.object (entries ++ [(units, j)])), stack⟩
    else none
  | _ => none

/-- The end of a string. -/
def quoted (isKey : Bool) (units : List Nat) (stack : List Frame) : State :=
  if isKey then ⟨.colon, .key units :: stack⟩ else ⟨.after (.string units), stack⟩

/-- A code point between the quotes of a string. -/
def inString (isKey : Bool) (units : List Nat) (stack : List Frame) (c : CodePoint) :
    Spot → Option State
  | .between =>
    if c = .char '"' then some (quoted isKey units stack)
    else if c = .char '\\' then some ⟨.string isKey units .escape, stack⟩
    else if c.toNat < 0x20 then none
    else some ⟨.string isKey (units ++ c.units) .between, stack⟩
  | .escape =>
    if c = .char 'u' then some ⟨.string isKey units (.digits 4 0), stack⟩
    else (shortEscape? c).map fun u => ⟨.string isKey (units ++ [u]) .between, stack⟩
  | .digits left value =>
    (c.hexAfter? value).map fun n =>
      if left ≤ 1 then ⟨.string isKey (units ++ [n]) .between, stack⟩
      else ⟨.string isKey units (.digits (left - 1) n), stack⟩

/-- What a code point does. -/
def step (s : State) (c : CodePoint) : Option State :=
  match s.place with
  | .value => some (opening c s.stack)
  | .first =>
    if c = .char ']' then
      match s.stack with
      | .array items :: stack => some ⟨.after (.array items), stack⟩
      | _ => none
    else some (opening c s.stack)
  | .entry =>
    if c = .char '\x7d' then
      match s.stack with
      | .object entries :: stack => some ⟨.after (.object entries), stack⟩
      | _ => none
    else if c = .char '"' then some ⟨.string true [] .between, s.stack⟩
    else none
  | .key => if c = .char '"' then some ⟨.string true [] .between, s.stack⟩ else none
  | .colon => if c = .char ':' then some ⟨.value, s.stack⟩ else none
  | .word t =>
    if isDelimiter c then (wordValue? t).bind fun j => closing j c s.stack
    else some ⟨.word (t ++ [c]), s.stack⟩
  | .string isKey units spot => inString isKey units s.stack c spot
  | .after j => closing j c s.stack

/-- A word has a value when it is known that it ends. -/
def State.settle? (s : State) : Option State :=
  match s.place with
  | .word t => (wordValue? t).map fun j => ⟨.after j, s.stack⟩
  | _ => some s

/-- The value of a text that is one document. -/
def read (t : Text) : Option Json := do
  let s ← t.foldlM step ⟨.value, []⟩
  match ← s.settle? with
  | ⟨.after j, []⟩ => some j
  | _ => none

/-! ## Values in documents -/

/-- A text is read as a value wherever one is expected. -/
def Reads (t : Text) (j : Json) : Prop :=
  ∀ p stack, p = .value ∨ p = .first →
    ∃ s, t.foldlM step ⟨p, stack⟩ = some s ∧ s.settle? = some ⟨.after j, stack⟩

variable {t : Text} {us : List Nat} {j : Json} {stack : List Frame} {p : Place} {c : CodePoint}

/-- The reader goes on from where one code point leaves it. -/
theorem foldlM_step_cons {s s' : State} (h : step s c = some s') (t : Text) :
    (c :: t).foldlM step s = t.foldlM step s' := by
  rw [List.foldlM_cons, h]
  rfl

/-- The reader goes on from where the first part of a text leaves it. -/
theorem foldlM_step_append {s s' : State} (h : t.foldlM step s = some s') (u : Text) :
    (t ++ u).foldlM step s = u.foldlM step s' := by
  rw [List.foldlM_append, h]
  rfl

/-- **A text that is read as a value is a document** with that value. -/
theorem Reads.read (h : Reads t j) : read t = some j := by
  obtain ⟨s, hrun, hsettle⟩ := h .value [] (.inl rfl)
  simp [Json.read, hrun, hsettle]

theorem step_opening (hp : p = .value ∨ p = .first) (hc : c ≠ .char ']') :
    step ⟨p, stack⟩ c = some (opening c stack) := by
  rcases hp with rfl | rfl
  · rfl
  · simp [step, hc]

/-- Behind a value the reader goes on in the container around it. -/
theorem step_settled {s : State} (h : s.settle? = some ⟨.after j, stack⟩)
    (hc : isDelimiter c = true) : step s c = closing j c stack := by
  obtain ⟨place, frames⟩ := s
  cases place with
  | word t =>
    obtain ⟨k, hk, heq⟩ := Option.map_eq_some_iff.1 h
    cases heq
    simp [step, hc, hk]
  | after k =>
    cases h
    rfl
  | _ => cases h

/-! ### Strings -/

/-- The digits of an escape. -/
theorem foldlM_digits {isKey : Bool} {ds : Text} {u : Nat} :
    ∀ {left value : Nat}, ds.length = left + 1 → ds.foldlM CodePoint.hexAfter? value = some u →
      ds.foldlM step ⟨.string isKey us (.digits (left + 1) value), stack⟩ =
        some ⟨.string isKey (us ++ [u]) .between, stack⟩ := by
  induction ds with
  | nil => intro left value h; cases h
  | cons d ds ih =>
    intro left value hlength hds
    rw [List.foldlM_cons] at hds ⊢
    obtain ⟨n, hn, hds⟩ := Option.bind_eq_some_iff.1 hds
    cases left with
    | zero =>
      obtain rfl := List.length_eq_zero_iff.1 (Nat.succ.inj hlength)
      cases hds
      simp [step, inString, hn]
    | succ left =>
      have hstep : step ⟨.string isKey us (.digits (left + 1 + 1) value), stack⟩ d =
          some ⟨.string isKey us (.digits (left + 1) n), stack⟩ := by
        simp [step, inString, hn]
      rw [hstep]
      exact ih (Nat.succ.inj hlength) hds

/-- **The content of a string is read as what it stands for.** -/
theorem foldlM_content (h : Content t us) (isKey : Bool) (vs : List Nat) (stack : List Frame) :
    t.foldlM step ⟨.string isKey vs .between, stack⟩ =
      some ⟨.string isKey (vs ++ us) .between, stack⟩ := by
  have hslash : ∀ vs, step ⟨.string isKey vs .between, stack⟩ (.char '\\') =
      some ⟨.string isKey vs .escape, stack⟩ := fun _ => rfl
  induction h generalizing vs with
  | nil => simp
  | @itself c t us hquote hbackslash hcontrol _ ih =>
    have hstep : step ⟨.string isKey vs .between, stack⟩ c =
        some ⟨.string isKey (vs ++ c.units) .between, stack⟩ := by
      simp [step, inString, hquote, hbackslash, Nat.not_lt.2 hcontrol]
    rw [foldlM_step_cons hstep, ih, List.append_assoc]
  | @short c u t us hc _ ih =>
    have hu : c ≠ .char 'u' := by
      rintro rfl
      cases hc
    have hstep : step ⟨.string isKey vs .escape, stack⟩ c =
        some ⟨.string isKey (vs ++ [u]) .between, stack⟩ := by
      simp [step, inString, hu, hc]
    rw [foldlM_step_cons (hslash vs), foldlM_step_cons hstep, ih]
    simp
  | @numbered ds u t us hlength hds _ ih =>
    have hletter : step ⟨.string isKey vs .escape, stack⟩ (.char 'u') =
        some ⟨.string isKey vs (.digits 4 0), stack⟩ := rfl
    rw [foldlM_step_cons (hslash vs), foldlM_step_cons hletter,
      foldlM_step_append (foldlM_digits hlength hds), ih]
    simp

/-- A string between its quotes. -/
theorem foldlM_isString (h : IsString t us) {s : State} {isKey : Bool}
    (hs : step s (.char '"') = some ⟨.string isKey [] .between, stack⟩) :
    t.foldlM step s = some (quoted isKey us stack) := by
  obtain ⟨body, rfl, hbody⟩ := h
  have hclose : step ⟨.string isKey us .between, stack⟩ (.char '"') =
      some (quoted isKey us stack) := rfl
  rw [List.cons_append, foldlM_step_cons hs,
    foldlM_step_append (foldlM_content hbody isKey [] stack), List.nil_append,
    foldlM_step_cons hclose]
  rfl

/-- **A string is read as what it stands for.** -/
theorem Reads.string (h : IsString t us) : Reads t (.string us) := by
  intro p stack hp
  refine ⟨quoted false us stack, foldlM_isString h ?_, rfl⟩
  rw [step_opening hp (by decide)]
  rfl

/-! ### Words -/

/-- A code point that words and numbers are written with. -/
def isWordPart (c : CodePoint) : Bool :=
  !isDelimiter c && c != .char '"' && c != .char '[' && c != .char '\x7b'

theorem foldlM_word (ht : ∀ c ∈ t, isWordPart c = true) (u : Text) (stack : List Frame) :
    t.foldlM step ⟨.word u, stack⟩ = some ⟨.word (u ++ t), stack⟩ := by
  induction t generalizing u with
  | nil => simp
  | cons c t ih =>
    have hc : isDelimiter c = false := by
      have hc := ht c (by simp)
      simp only [isWordPart, Bool.and_eq_true, Bool.not_eq_true'] at hc
      exact hc.1.1.1
    have hstep : step ⟨.word u, stack⟩ c = some ⟨.word (u ++ [c]), stack⟩ := by
      simp [step, hc]
    rw [foldlM_step_cons hstep, ih fun d hd => ht d (List.mem_cons_of_mem _ hd)]
    simp

/-- **A word is read as its value.** -/
theorem Reads.word (hne : t ≠ []) (ht : ∀ c ∈ t, isWordPart c = true)
    (hj : wordValue? t = some j) : Reads t j := by
  intro p stack hp
  obtain ⟨c, t, rfl⟩ := List.exists_cons_of_ne_nil hne
  have hc := ht c (by simp)
  simp only [isWordPart, isDelimiter, Bool.and_eq_true, Bool.not_eq_true', Bool.or_eq_false_iff,
    beq_eq_false_iff_ne, bne_iff_ne] at hc
  obtain ⟨⟨⟨⟨⟨-, hbracket⟩, -⟩, hquote⟩, harray⟩, hobject⟩ := hc
  have hstep : step ⟨p, stack⟩ c = some ⟨.word [c], stack⟩ := by
    rw [step_opening hp hbracket]
    simp [opening, hquote, harray, hobject]
  refine ⟨⟨.word (c :: t), stack⟩, ?_, by simp [State.settle?, hj]⟩
  rw [foldlM_step_cons hstep, foldlM_word fun d hd => ht d (List.mem_cons_of_mem _ hd)]
  rfl

theorem Reads.null : Reads (Text.ofString "null") .null :=
  .word (by decide) (by decide) rfl

theorem Reads.bool (b : Bool) :
    Reads (Text.ofString (if b then "true" else "false")) (.bool b) := by
  cases b
  · exact .word (by decide) (by decide) rfl
  · exact .word (by decide) (by decide) rfl

/-- A code point that numbers are written with. -/
def isNumberPart (c : CodePoint) : Bool :=
  c.isDecimal || c == .char '-' || c == .char '+' || c == .char '.' || c == .char 'e' ||
    c == .char 'E'

theorem isWordPart_of_isNumberPart (h : isNumberPart c = true) : isWordPart c = true := by
  simp only [isNumberPart, Bool.or_eq_true, beq_iff_eq] at h
  rcases h with ((((h | rfl) | rfl) | rfl) | rfl) | rfl
  · have hne : ∀ d : CodePoint, d.isDecimal = false → c ≠ d := by
      rintro d hd rfl
      exact absurd (h.symm.trans hd) (by decide)
    simp [isWordPart, isDelimiter, hne (.char ',') rfl, hne (.char ']') rfl,
      hne (.char '\x7d') rfl, hne (.char '"') rfl, hne (.char '[') rfl, hne (.char '\x7b') rfl]
  all_goals decide

theorem isNumberPart_of_isDigits (h : isDigits t = true) : ∀ c ∈ t, isNumberPart c = true := by
  intro c hc
  simp [isNumberPart, (isDigits_iff.1 h).2 c hc]

theorem isNumberPart_of_isExponent (h : isExponent t = true) :
    ∀ c ∈ t, isNumberPart c = true := by
  cases t with
  | nil => simp
  | cons e t =>
    simp only [isExponent, Bool.and_eq_true, Bool.or_eq_true, beq_iff_eq] at h
    obtain ⟨he, hdigits⟩ := h
    refine List.forall_mem_cons.2 ⟨by rcases he with rfl | rfl <;> rfl, ?_⟩
    unfold unsigned at hdigits
    split at hdigits
    · exact List.forall_mem_cons.2 ⟨rfl, isNumberPart_of_isDigits hdigits⟩
    · exact List.forall_mem_cons.2 ⟨rfl, isNumberPart_of_isDigits hdigits⟩
    · exact isNumberPart_of_isDigits hdigits

/-- Digits, and what comes after them. -/
theorem forall_mem_of_takeWhile {q : CodePoint → Prop}
    (htake : ∀ c ∈ t.takeWhile CodePoint.isDecimal, q c)
    (hdrop : ∀ c ∈ t.dropWhile CodePoint.isDecimal, q c) : ∀ c ∈ t, q c := by
  intro c hc
  rw [← List.takeWhile_append_dropWhile (p := CodePoint.isDecimal) (l := t)] at hc
  exact (List.mem_append.1 hc).elim (htake c) (hdrop c)

theorem isNumberPart_of_isFraction (h : isFraction t = true) :
    ∀ c ∈ t, isNumberPart c = true := by
  unfold isFraction at h
  split at h
  · rw [Bool.and_eq_true] at h
    exact List.forall_mem_cons.2 ⟨rfl, forall_mem_of_takeWhile (isNumberPart_of_isDigits h.1)
      (isNumberPart_of_isExponent h.2)⟩
  · exact isNumberPart_of_isExponent h

theorem isNumberPart_of_isUnsigned (h : isUnsigned t = true) :
    ∀ c ∈ t, isNumberPart c = true := by
  rw [isUnsigned, Bool.and_eq_true] at h
  exact forall_mem_of_takeWhile (isNumberPart_of_isDigits (isWhole_iff.1 h.1).1)
    (isNumberPart_of_isFraction h.2)

/-- **A number is read as it is written.** -/
theorem Reads.number (h : isNumber t = true) : Reads t (.number t) := by
  have hparts : ∀ c ∈ t, isNumberPart c = true := by
    unfold isNumber at h
    split at h
    · exact List.forall_mem_cons.2 ⟨rfl, isNumberPart_of_isUnsigned h⟩
    · exact isNumberPart_of_isUnsigned h
  have hne : ∀ u, isNumber u = false → t ≠ u := by
    rintro u hu rfl
    exact absurd (h.symm.trans hu) (by decide)
  -- The words that are not numbers have values of their own and are looked up first.
  refine .word (hne [] rfl) (fun c hc => isWordPart_of_isNumberPart (hparts c hc)) ?_
  rw [wordValue?, if_neg (hne _ (by decide)), if_neg (hne _ (by decide)),
    if_neg (hne _ (by decide)), if_pos h]

/-! ### Arrays and objects -/

section Row

variable {α : Type} {R : Text → α → Prop} {start next : Place} {frame : List α → Frame}
  {close : CodePoint} {whole : List α → Json} {ts : List Text} {xs : List α}

/-- **Parts in a row between commas**, up to what closes the row. Of each
part it is enough to know what the comma and what the close do behind it. -/
theorem foldlM_row
    (hpart : ∀ {t x q} (done : List α), R t x → q = next ∨ q = start →
      ∃ s, t.foldlM step ⟨q, frame done :: stack⟩ = some s ∧
        step s (.char ',') = some ⟨next, frame (done ++ [x]) :: stack⟩ ∧
        step s close = some ⟨.after (whole (done ++ [x])), stack⟩)
    (h : List.Forall₂ R ts xs) (hne : ts ≠ []) (hp : p = next ∨ p = start) (done : List α) :
    ∃ s, (Text.join [.char ','] ts).foldlM step ⟨p, frame done :: stack⟩ = some s ∧
      step s close = some ⟨.after (whole (done ++ xs)), stack⟩ := by
  induction h generalizing p done with
  | nil => exact absurd rfl hne
  | @cons t x ts xs ht hts ih =>
    obtain ⟨s, hrun, hcomma, hclose⟩ := hpart done ht hp
    -- The comma belongs to the part before it, so the last part is a case of its own.
    cases hts with
    | nil => exact ⟨s, hrun, hclose⟩
    | cons hu hts =>
      obtain ⟨s', hrun', hclose'⟩ := ih (by simp) (.inl rfl) (done ++ [x])
      refine ⟨s', ?_, by simpa using hclose'⟩
      rw [Text.join_cons_cons, List.append_assoc, foldlM_step_append hrun, List.singleton_append,
        foldlM_step_cons hcomma, hrun']

/-- **A row between brackets is read as the container of its parts.** -/
theorem Reads.bracketed {bracket : CodePoint}
    (hopen : ∀ {q stack}, q = .value ∨ q = .first →
      step ⟨q, stack⟩ bracket = some ⟨start, frame [] :: stack⟩)
    (hempty : ∀ {stack}, step ⟨start, frame [] :: stack⟩ close =
      some ⟨.after (whole []), stack⟩)
    (hpart : ∀ {t x q stack} (done : List α), R t x → q = next ∨ q = start →
      ∃ s, t.foldlM step ⟨q, frame done :: stack⟩ = some s ∧
        step s (.char ',') = some ⟨next, frame (done ++ [x]) :: stack⟩ ∧
        step s close = some ⟨.after (whole (done ++ [x])), stack⟩)
    (h : List.Forall₂ R ts xs) :
    Reads (bracket :: Text.join [.char ','] ts ++ [close]) (whole xs) := by
  intro p stack hp
  refine ⟨⟨.after (whole xs), stack⟩, ?_, rfl⟩
  rw [List.cons_append, foldlM_step_cons (hopen hp)]
  by_cases hne : ts = []
  · subst hne
    cases h
    exact foldlM_step_cons hempty []
  · obtain ⟨s, hrun, hclose⟩ := foldlM_row hpart h hne (.inr rfl) []
    rw [foldlM_step_append hrun]
    exact foldlM_step_cons hclose []

end Row

/-- **An array is read as its items.** -/
theorem Reads.array {ts : List Text} {js : List Json} (h : List.Forall₂ Reads ts js) :
    Reads (.char '[' :: Text.join [.char ','] ts ++ [.char ']']) (.array js) := by
  have hopen : ∀ {q stack}, q = .value ∨ q = .first →
      step ⟨q, stack⟩ (.char '[') = some ⟨.first, .array [] :: stack⟩ := by
    intro q stack hq
    rw [step_opening hq (by decide)]
    rfl
  have hitem : ∀ {t j q stack} (done : List Json), Reads t j → q = .value ∨ q = .first →
      ∃ s, t.foldlM step ⟨q, .array done :: stack⟩ = some s ∧
        step s (.char ',') = some ⟨.value, .array (done ++ [j]) :: stack⟩ ∧
        step s (.char ']') = some ⟨.after (.array (done ++ [j])), stack⟩ := by
    intro t j q stack done ht hq
    obtain ⟨s, hrun, hsettle⟩ := ht q (.array done :: stack) hq
    exact ⟨s, hrun, step_settled hsettle rfl, step_settled hsettle rfl⟩
  exact .bracketed hopen rfl hitem h

/-- An entry of an object: a key, a colon and a value. -/
def ReadsEntry (t : Text) (e : List Nat × Json) : Prop :=
  ∃ key value, t = key ++ .char ':' :: value ∧ IsString key e.1 ∧ Reads value e.2

/-- **An object is read as its entries.** -/
theorem Reads.object {ts : List Text} {es : List (List Nat × Json)}
    (h : List.Forall₂ ReadsEntry ts es) :
    Reads (.char '\x7b' :: Text.join [.char ','] ts ++ [.char '\x7d']) (.object es) := by
  have hopen : ∀ {q stack}, q = .value ∨ q = .first →
      step ⟨q, stack⟩ (.char '\x7b') = some ⟨.entry, .object [] :: stack⟩ := by
    intro q stack hq
    rw [step_opening hq (by decide)]
    rfl
  have hentry : ∀ {t e q stack} (done : List (List Nat × Json)), ReadsEntry t e →
      q = .key ∨ q = .entry →
      ∃ s, t.foldlM step ⟨q, .object done :: stack⟩ = some s ∧
        step s (.char ',') = some ⟨.key, .object (done ++ [e]) :: stack⟩ ∧
        step s (.char '\x7d') = some ⟨.after (.object (done ++ [e])), stack⟩ := by
    rintro _ e q stack done ⟨key, value, rfl, hkey, hvalue⟩ hq
    have hquote : step ⟨q, .object done :: stack⟩ (.char '"') =
        some ⟨.string true [] .between, .object done :: stack⟩ := by
      rcases hq with rfl | rfl <;> rfl
    have hcolon : step (quoted true e.1 (.object done :: stack)) (.char ':') =
        some ⟨.value, .key e.1 :: .object done :: stack⟩ := rfl
    obtain ⟨s, hrun, hsettle⟩ := hvalue .value (.key e.1 :: .object done :: stack) (.inl rfl)
    refine ⟨s, ?_, step_settled hsettle rfl, step_settled hsettle rfl⟩
    rw [foldlM_step_append (foldlM_isString hkey hquote), foldlM_step_cons hcolon, hrun]
  exact .bracketed hopen rfl hentry h

end Json

end Splice
