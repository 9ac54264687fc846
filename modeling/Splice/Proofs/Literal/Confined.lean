import Splice.Proofs.Code
import Splice.Proofs.JavaScript.StringLiteral
/-!
# Literals — data cannot end its literal

What the encoder writes can stand anywhere in source text. The first pass
leaves no control character (`Datum.noControl_encodeTo`), the second
leaves no line separator and no surrogate and brings no control character
back (`Text.NoControl.cleared`), so every literal is free of all of them,
whatever value it is of.

A literal of text is moreover one token. A reader of JavaScript string
literals that starts at its first quote stops behind its last, whatever
comes after it, and has read the code units of the text
(`JavaScript.token?_literal`). So an argument that is text takes up one
token of the code it is spliced into, whatever code is around it.
-/

namespace Splice

/-! ## No control characters, separators and surrogates -/

/-- A text without control characters. -/
def Text.NoControl (t : Text) : Prop := ∀ c ∈ t, 0x20 ≤ c.toNat

instance (t : Text) : Decidable t.NoControl :=
  inferInstanceAs (Decidable (∀ c ∈ t, 0x20 ≤ c.toNat))

namespace Text

variable {t u : Text}

theorem noControl_nil : NoControl [] := fun _ h => absurd h List.not_mem_nil

theorem noControl_cons {c : CodePoint} :
    NoControl (c :: t) ↔ 0x20 ≤ c.toNat ∧ NoControl t := List.forall_mem_cons

theorem noControl_append : NoControl (t ++ u) ↔ NoControl t ∧ NoControl u :=
  List.forall_mem_append

theorem IsPlain.noControl (h : IsPlain t) : NoControl t :=
  fun c hc => (CodePoint.toNat_of_isPlain (h c hc)).1

theorem noControl_join {separator : Text} (hs : NoControl separator) :
    ∀ {ts : List Text}, (∀ t ∈ ts, NoControl t) → NoControl (join separator ts)
  | [], _ => noControl_nil
  | [t], h => h t (List.mem_singleton.2 rfl)
  | t :: u :: ts, h => by
    obtain ⟨ht, hrest⟩ := List.forall_mem_cons.1 h
    rw [join_cons_cons, noControl_append, noControl_append]
    exact ⟨⟨ht, hs⟩, noControl_join hs hrest⟩

/-- What is written between brackets and commas. -/
theorem noControl_bracketed {opening closing : CodePoint} (ho : opening.isPlain = true)
    (hc : closing.isPlain = true) {ts : List Text} (h : ∀ t ∈ ts, NoControl t) :
    NoControl (opening :: join [.char ','] ts ++ [closing]) := by
  have hcomma : NoControl [.char ','] := by decide
  rw [noControl_append, noControl_cons, noControl_cons]
  exact ⟨⟨(CodePoint.toNat_of_isPlain ho).1, noControl_join hcomma h⟩,
    (CodePoint.toNat_of_isPlain hc).1, noControl_nil⟩

end Text

namespace CodePoint

theorem noControl_numbered (c : CodePoint) : c.numbered.NoControl := by
  rw [numbered, Text.noControl_append]
  exact ⟨by decide, (Text.isPlain_hex 4 _).noControl⟩

/-- The first pass escapes every control character. -/
theorem noControl_escaped (c : CodePoint) : c.escaped.NoControl := by
  unfold escaped
  split_ifs with h₁ h₂ h₃ h₄ h₅ h₆ h₇ h₈
  -- Seven escapes by a letter or sign, then those by number, then what is kept.
  iterate 7 · decide
  · exact c.noControl_numbered
  · exact Text.noControl_cons.2 ⟨by omega, Text.noControl_nil⟩

theorem not_barred_numbered {c d : CodePoint} (h : d ∈ c.numbered) : d.isBarred = false := by
  have hmark : ∀ e ∈ Text.ofString "\\u", e.isBarred = false := by decide
  rcases List.mem_append.1 h with h | h
  · exact hmark d h
  · have := toNat_of_isPlain (Text.isPlain_hex 4 _ d h)
    exact not_barred_of_lt (by omega)

end CodePoint

namespace Text

theorem noControl_encoded (t : Text) : t.encoded.NoControl := by
  have hquote : NoControl [.char '"'] := by decide
  rw [encoded, noControl_append, ← List.singleton_append, noControl_append]
  refine ⟨⟨hquote, fun c hc => ?_⟩, hquote⟩
  obtain ⟨d, -, hc⟩ := List.mem_flatMap.1 hc
  exact d.noControl_escaped c hc

/-- The second pass leaves nothing that it bars, and no control character
where there was none. -/
theorem NoControl.cleared {t : Text} (h : t.NoControl) :
    ∀ c ∈ t.cleared, 0x20 ≤ c.toNat ∧ c.isBarred = false := by
  intro c hc
  obtain ⟨d, hd, hc⟩ := List.mem_flatMap.1 hc
  rw [CodePoint.cleared] at hc
  split at hc
  · exact ⟨d.noControl_numbered c hc, CodePoint.not_barred_numbered hc⟩
  · obtain rfl := List.mem_singleton.1 hc
    exact ⟨h c hd, by simpa using ‹¬c.isBarred = true›⟩

end Text

namespace Datum

mutual

/-- The first pass leaves no control character, whatever it writes out. -/
theorem noControl_encodeTo {depth : Nat} {d : Datum} {t : Text} (h : d.encodeTo depth = .ok t) :
    t.NoControl := by
  match depth, d with
  | _, .scalar c =>
    rw [encodeTo] at h
    exact (c.plain_encode h).noControl
  | _, .text u =>
    rw [encodeTo] at h
    exact Except.ok.inj h ▸ u.noControl_encoded
  | depth + 1, .list ds =>
    rw [encodeTo] at h
    obtain ⟨ts, hts, h⟩ := exists_of_bind_eq_ok h
    exact Except.ok.inj h ▸ Text.noControl_bracketed (by decide) (by decide)
      (noControl_encodeItems hts)
  | depth + 1, .tuple ds =>
    rw [encodeTo] at h
    obtain ⟨ts, hts, h⟩ := exists_of_bind_eq_ok h
    exact Except.ok.inj h ▸ Text.noControl_bracketed (by decide) (by decide)
      (noControl_encodeItems hts)
  | depth + 1, .dict es =>
    rw [encodeTo] at h
    obtain ⟨ts, hts, h⟩ := exists_of_bind_eq_ok h
    exact Except.ok.inj h ▸ Text.noControl_bracketed (by decide) (by decide)
      (noControl_encodeEntries hts)

theorem noControl_encodeItems {depth : Nat} {ds : List Datum} {ts : List Text}
    (h : encodeItems depth ds = .ok ts) : ∀ t ∈ ts, t.NoControl := by
  match ds with
  | [] =>
    rw [encodeItems] at h
    cases h
    exact nofun
  | d :: ds =>
    rw [encodeItems] at h
    obtain ⟨t, ht, h⟩ := exists_of_bind_eq_ok h
    obtain ⟨us, hus, h⟩ := exists_of_bind_eq_ok h
    cases h
    exact List.forall_mem_cons.2 ⟨noControl_encodeTo ht, noControl_encodeItems hus⟩

theorem noControl_encodeEntries {depth : Nat} {es : List (Datum × Datum)} {ts : List Text}
    (h : encodeEntries depth es = .ok ts) : ∀ t ∈ ts, t.NoControl := by
  match es with
  | [] =>
    rw [encodeEntries] at h
    cases h
    exact nofun
  | (key, value) :: es =>
    rw [encodeEntries] at h
    obtain ⟨k, hk, h⟩ := exists_of_bind_eq_ok h
    obtain ⟨t, ht, h⟩ := exists_of_bind_eq_ok h
    obtain ⟨us, hus, h⟩ := exists_of_bind_eq_ok h
    cases h
    refine List.forall_mem_cons.2 ⟨?_, noControl_encodeEntries hus⟩
    rw [Text.noControl_append, Text.noControl_cons]
    exact ⟨k.noControl_encoded, by decide, noControl_encodeTo ht⟩

end

/-- A literal is what the first pass has written and the second has cleared. -/
theorem exists_of_encode {d : Datum} {t : Text} (h : d.encode = .ok t) :
    ∃ u, d.encodeTo maxDepth = .ok u ∧ u.cleared = t := by
  rw [encode] at h
  cases hu : d.encodeTo maxDepth with
  | error e =>
    rw [hu] at h
    cases h
  | ok u =>
    rw [hu] at h
    exact ⟨u, rfl, Except.ok.inj h⟩

/-- **A literal holds nothing that source text may not hold.** -/
theorem noControl_encode {d : Datum} {t : Text} (h : d.encode = .ok t) :
    ∀ c ∈ t, 0x20 ≤ c.toNat ∧ c.isBarred = false := by
  obtain ⟨u, hu, rfl⟩ := exists_of_encode h
  exact (noControl_encodeTo hu).cleared

end Datum

/-! ## One token -/

namespace JavaScript

/-- The string literal at the beginning of a text, if there is one: the
code units it stands for, and the text behind it. -/
def token? (old : Bool) : Text → Option (List Nat × Text)
  | [] => none
  | c :: rest => if c = .char '"' then StringLiteral.read old .between rest else none

/-- **A JSON string is read up to its end**, whatever comes after it. In
older grammars it may not hold the separators that end a line. -/
theorem token?_of_isString {old : Bool} {t : Text} {us : List Nat} (h : Json.IsString t us)
    (hold : old = true → ∀ c ∈ t, c.isBarred = false) (rest : Text) :
    token? old (t ++ rest) = some (us, rest) := by
  obtain ⟨body, rfl, hbody⟩ := h
  have hbarred : old = true → ∀ c ∈ body, c.isBarred = false :=
    fun ho c hc => hold ho c (by simp [hc])
  have hclose : StringLiteral.read old .between (.char '"' :: rest) = some ([], rest) := rfl
  rw [List.cons_append, List.cons_append, token?, if_pos rfl, List.append_assoc,
    List.singleton_append, StringLiteral.read_content hbody hbarred, hclose]
  simp [StringLiteral.after]

/-- **The literal of a text is one token**, which stands for the text. -/
theorem token?_literal (old : Bool) (t rest : Text) :
    token? old (t.literal ++ rest) = some (t.units, rest) :=
  token?_of_isString t.isString_literal (fun _ c hc => (t.noControl_encoded.cleared c hc).2) rest

/-- No code point that a literal holds ends a line. -/
theorem not_endsLine {c : CodePoint} (h : 0x20 ≤ c.toNat ∧ c.isBarred = false) :
    endsLine true c = false := by
  have hfeed : c ≠ .char '\n' := by rintro rfl; exact absurd h.1 (by decide)
  have hreturn : c ≠ .char '\r' := by rintro rfl; exact absurd h.1 (by decide)
  have hbarred := h.2
  simp only [CodePoint.isBarred, Bool.or_eq_false_iff] at hbarred
  simp [endsLine, hfeed, hreturn, hbarred.1]

end JavaScript

/-! ## Spliced into code -/

namespace Build

variable {σ : Session}

/-- A text between two segments. -/
theorem code_text {segments : Segments} {p q : Text} (h : segments.Are σ.store [p, q]) (t : Text) :
    ∃ v τ, code segments [.text t] σ = .ok v τ ∧
      τ.store.Holds v [.text p, .text t.literal, .text q] false := by
  have hargs : List.Forall₂ (fun arg p => σ.store.Splices arg p.1) [.text t]
      [([segmentItem t], q)] := .cons (σ.store.splices_text t) .nil
  obtain ⟨v, τ, hv, hholds, -⟩ := code_of_splices h hargs
  exact ⟨v, τ, hv, hholds⟩

/-- **Data cannot leave its literal.** No literal holds a control
character, a line separator or a surrogate. The literal of a text is read
as one token wherever it stands, and the token stands for the text: what
follows is left over, and no line ends inside. So a text between two
segments of code is one token behind the first and before the second. -/
theorem literal_confined :
    (∀ {v : Value} {t : Text} {τ : Session}, literal v σ = .ok t τ →
      ∀ c ∈ t, 0x20 ≤ c.toNat ∧ c.toNat ≠ 0x2028 ∧ c.toNat ≠ 0x2029 ∧ c.isSurrogate = false) ∧
    (∀ s : Text, ∃ t, literal (.text s) σ = .ok t σ ∧
      (∀ c ∈ t, JavaScript.endsLine true c = false) ∧
      ∀ old rest, JavaScript.token? old (t ++ rest) = some (s.units, rest)) ∧
    ∀ {segments : Segments} {p q : Text}, segments.Are σ.store [p, q] → ∀ s : Text,
      ∃ v τ t, code segments [.text s] σ = .ok v τ ∧ literal (.text s) σ = .ok t σ ∧
        τ.store.codeText v = .ok (p ++ t ++ q) ∧
        ∀ old, JavaScript.token? old (t ++ q) = some (s.units, q) := by
  refine ⟨fun h c hc => ?_, fun s => ?_, fun hsegments s => ?_⟩
  · obtain ⟨hcontrol, hbarred⟩ := Datum.noControl_encode (literal_eq_ok.1 h).1 c hc
    simp only [CodePoint.isBarred, Bool.or_eq_false_iff, beq_eq_false_iff_ne, ne_eq] at hbarred
    exact ⟨hcontrol, hbarred.1.1, hbarred.1.2, hbarred.2⟩
  · exact ⟨s.literal, literal_text s,
      fun c hc => JavaScript.not_endsLine (s.noControl_encoded.cleared c hc),
      fun old rest => JavaScript.token?_literal old s rest⟩
  · obtain ⟨v, τ, hv, hholds⟩ := code_text hsegments s
    have htext : τ.store.codeText v = .ok [_, s.literal, _].flatten := hholds.codeText
      (.cons (fun _ => rfl) (.cons (fun _ => rfl) (.cons (fun _ => rfl) .nil)))
    refine ⟨v, τ, s.literal, hv, literal_text s, ?_, fun old => JavaScript.token?_literal old s _⟩
    rw [htext]
    simp

/-- A text of everything that could end a literal, between segments that
bring quotes of their own and are held by a list. -/
theorem literal_confined_between_quotes :
    let s : Text := [.char '"', .char '\\', .char '\u2028', .surrogate 0, .char '\n', .char '\\']
    let p : Text := "\""
    let q : Text := "\" + \\\""
    let σ : Session := ⟨⟨#[.list [.text p, .text q]]⟩, []⟩
    ((Segments.held ⟨0⟩).Are σ.store [p, q] ∧ literal (.text s) σ = .ok s.literal σ) ∧
      (∀ c ∈ s.literal, 0x20 ≤ c.toNat ∧ c.toNat ≠ 0x2028 ∧ c.toNat ≠ 0x2029 ∧
        c.isSurrogate = false) ∧
      ∃ v τ t, code (.held ⟨0⟩) [.text s] σ = .ok v τ ∧ literal (.text s) σ = .ok t σ ∧
        τ.store.codeText v = .ok (p ++ t ++ q) ∧
        ∀ old, JavaScript.token? old (t ++ q) = some (s.units, q) := by
  intro s p q σ
  have hsegments : (Segments.held ⟨0⟩).Are σ.store [p, q] := .inl rfl
  have hliteral : literal (.text s) σ = .ok s.literal σ := literal_text s
  exact ⟨⟨hsegments, hliteral⟩, literal_confined.1 hliteral, literal_confined.2.2 hsegments s⟩

end Build

end Splice
