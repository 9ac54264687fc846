import Splice.Proofs.Format.Field
import Mathlib.Data.List.Infix
/-!
# Format strings — what is accepted

A format string is read piece by piece from the left: a code point that is
no brace, a doubled brace, or a field (`Format.Piece`). It is accepted if
it is a row of pieces of which every field is blank (`split_eq_ok_iff`).
Otherwise the first field that is not blank is reported
(`split_eq_fieldNotBare_iff`), or the place from where on no piece can be
read, whichever is further to the left (`split_cases`).

A field is blank if its parts say nothing, as those of `{:}` do, and not
only if there are no parts. So the bare field, that of the two braces
alone, is not the only one that is accepted. But for that a format string
is what its segments are written as, each brace doubled and a bare field
between any two (`conforms_iff`).
-/

namespace Splice

namespace Format

/-! ## Pieces -/

def isBrace (c : CodePoint) : Bool := c == .char '\x7b' || c == .char '\x7d'

/-- What a format string is read by. -/
inductive Piece
  /-- A code point that is no brace. -/
  | ordinary (c : CodePoint) (h : isBrace c = false)
  /-- A brace, written twice. -/
  | doubled (c : CodePoint) (h : isBrace c = true)
  /-- A complete field. -/
  | field (f : Field)

namespace Piece

/-- A piece as it is written. -/
def written : Piece → Text
  | ordinary c _ => [c]
  | doubled c _ => [c, c]
  | field f => f.written

/-- A piece before segments: it comes to the first, or ends a segment before it. -/
def onto : Piece → Text × List Text → Text × List Text
  | ordinary c _, s => (c :: s.1, s.2)
  | doubled c _, s => (c :: s.1, s.2)
  | field _, s => ([], s.1 :: s.2)

/-- The piece is no field, or a blank one. -/
def IsBlank : Piece → Prop
  | field f => f.isBlank = true
  | _ => True

/-- The piece is no field, or the bare one. -/
def IsBare : Piece → Prop
  | field f => f.written = bareField
  | _ => True

end Piece

/-- A row of pieces as it is written. -/
def written (row : List Piece) : Text := row.flatMap Piece.written

/-- The segments between the fields. -/
def segments (row : List Piece) : List Text :=
  let p := row.foldr Piece.onto ([], [])
  p.1 :: p.2

/-- No piece can be read from here. -/
def Malformed (t : Text) : Prop := t ≠ [] ∧ ∀ (p : Piece) (rest : Text), t ≠ p.written ++ rest

theorem written_cons (p : Piece) (row : List Piece) :
    written (p :: row) = p.written ++ written row :=
  List.flatMap_cons

variable {template t rest : Text} {row : List Piece} {p : Piece} {f : Field}

/-! ## Reading -/

/-- **A piece is read**, and what comes after it as if it stood alone. -/
theorem scan_piece (hp : p.IsBlank) (rest : Text) :
    scan .literal (p.written ++ rest) = (scan .literal rest).map p.onto := by
  cases p with
  | ordinary c h =>
    simp only [isBrace, Bool.or_eq_false_iff, beq_eq_false_iff_ne, ne_eq] at h
    exact scan_emit (by simp [step, h])
  | doubled c h =>
    simp only [isBrace, Bool.or_eq_true, beq_iff_eq] at h
    rcases h with rfl | rfl
    · exact (scan_move (q := .opened) rfl).trans (scan_emit rfl)
    · exact (scan_move (q := .closed) rfl).trans (scan_emit rfl)
  | field f => exact (scan_field f rest).trans (if_pos hp)

/-- So are pieces in a row. -/
theorem scan_written (hrow : ∀ p ∈ row, p.IsBlank) (rest : Text) :
    scan .literal (written row ++ rest) =
      (scan .literal rest).map (row.foldr Piece.onto · ) := by
  induction row with
  | nil =>
    rw [written, List.flatMap_nil, List.nil_append]
    cases scan .literal rest <;> rfl
  | cons p row ih =>
    obtain ⟨hp, hrow⟩ := List.forall_mem_cons.1 hrow
    rw [written_cons, List.append_assoc, scan_piece hp, ih hrow]
    cases scan .literal rest <;> rfl

/-- Where no piece can be read, the braces do not match. -/
theorem breaks_of_malformed (h : Malformed t) : Breaks .literal t := by
  obtain ⟨hne, hpiece⟩ := h
  obtain ⟨c, t, rfl⟩ := List.exists_cons_of_ne_nil hne
  cases hc : isBrace c with
  | false => exact absurd rfl (hpiece (.ordinary c hc) t)
  | true =>
    have hdoubled : ∀ rest, t ≠ c :: rest := by
      rintro rest rfl
      exact hpiece (.doubled c hc) rest rfl
    simp only [isBrace, Bool.or_eq_true, beq_iff_eq] at hc
    rcases hc with rfl | rfl
    · refine (scan_opened_error ?_ ?_).move rfl
      · rintro ⟨f, rest, rfl⟩
        exact hpiece (.field f) rest rfl
      · intro hhead
        obtain ⟨rest, rfl⟩ := List.head?_eq_some_iff.1 hhead
        exact hdoubled rest rfl
    · refine Breaks.move (q := .closed) rfl ?_
      cases t with
      | nil => exact breaks_nil rfl
      | cons d t =>
        have hd : d ≠ .char '\x7d' := by
          rintro rfl
          exact hdoubled t rfl
        exact ⟨.closingAlone, scan_error (if_neg hd)⟩

theorem Piece.written_ne_nil (p : Piece) : p.written ≠ [] := by
  cases p <;> exact List.cons_ne_nil _ _

/-- **Every text is a row of pieces**, none of them a field that is not
blank, up to its end, a field that is not blank, or a place from where on no
piece can be read. -/
theorem exists_reading (t : Text) : ∃ row rest, (∀ p ∈ row, p.IsBlank) ∧
    t = written row ++ rest ∧
      (rest = [] ∨ (∃ (f : Field) (post : Text), f.isBlank = false ∧ rest = f.written ++ post) ∨
        Malformed rest) := by
  induction hn : t.length using Nat.strongRecOn generalizing t with
  | ind n ih =>
    subst hn
    by_cases hempty : t = []
    · exact ⟨[], [], List.forall_mem_nil _, hempty, .inl rfl⟩
    by_cases hmalformed : Malformed t
    · exact ⟨[], t, List.forall_mem_nil _, rfl, .inr (.inr hmalformed)⟩
    obtain ⟨p, post, rfl⟩ : ∃ p rest, t = Piece.written p ++ rest := by
      simpa [Malformed, hempty] using hmalformed
    by_cases hp : p.IsBlank
    · have hshorter : post.length < (p.written ++ post).length := by
        have hpos := List.length_pos_iff.2 p.written_ne_nil
        rw [List.length_append]
        omega
      obtain ⟨row, rest, hrow, hpost, hrest⟩ := ih _ hshorter post rfl
      refine ⟨p :: row, rest, List.forall_mem_cons.2 ⟨hp, hrow⟩, ?_, hrest⟩
      rw [written_cons, List.append_assoc, hpost]
    · cases p with
      | field f =>
        have hf : f.isBlank = false := Bool.eq_false_iff.2 hp
        exact ⟨[], _, List.forall_mem_nil _, rfl, .inr (.inl ⟨f, post, hf, rfl⟩)⟩
      | _ => exact absurd trivial hp

/-! ## What is accepted -/

/-- A row of which every field is blank is split into its segments. -/
theorem split_written (hrow : ∀ p ∈ row, p.IsBlank) : split (written row) = .ok (segments row) := by
  have hscan := scan_written hrow []
  rw [List.append_nil] at hscan
  rw [split, hscan]
  rfl

/-- A complete field that is not blank is reported. -/
theorem split_field (hrow : ∀ p ∈ row, p.IsBlank) (hf : f.isBlank = false) (rest : Text) :
    split (written row ++ (f.written ++ rest)) =
      .error (.fieldNotBare (written row ++ (f.written ++ rest))) := by
  rw [split, scan_written hrow, scan_field, hf]
  rfl

/-- And so are braces that do not match. -/
theorem split_malformed (hrow : ∀ p ∈ row, p.IsBlank) (h : Malformed rest) :
    ∃ e, split (written row ++ rest) = .error (.braces e) := by
  obtain ⟨e, he⟩ := breaks_of_malformed h
  refine ⟨e, ?_⟩
  rw [split, scan_written hrow, he]
  rfl

/-- **What becomes of a format string.** -/
theorem split_cases (template : Text) :
    (∃ row, (∀ p ∈ row, p.IsBlank) ∧ template = written row ∧
      split template = .ok (segments row)) ∨
    (∃ (row : List Piece) (f : Field) (rest : Text), (∀ p ∈ row, p.IsBlank) ∧ f.isBlank = false ∧
      template = written row ++ (f.written ++ rest) ∧
      split template = .error (.fieldNotBare template)) ∨
    ∃ row rest e, (∀ p ∈ row, p.IsBlank) ∧ Malformed rest ∧ template = written row ++ rest ∧
      split template = .error (.braces e) := by
  obtain ⟨row, rest, hrow, rfl, rfl | ⟨f, post, hf, rfl⟩ | hmalformed⟩ := exists_reading template
  · rw [List.append_nil]
    exact .inl ⟨row, hrow, rfl, split_written hrow⟩
  · exact .inr (.inl ⟨row, f, post, hrow, hf, rfl, split_field hrow hf post⟩)
  · obtain ⟨e, he⟩ := split_malformed hrow hmalformed
    exact .inr (.inr ⟨row, rest, e, hrow, hmalformed, rfl, he⟩)

/-- Which format strings are accepted. -/
theorem split_eq_ok_iff {ts : List Text} : split template = .ok ts ↔
    ∃ row, (∀ p ∈ row, p.IsBlank) ∧ template = written row ∧ segments row = ts := by
  constructor
  · intro h
    obtain ⟨row, hrow, ht, hok⟩ | ⟨_, _, _, -, -, -, herror⟩ | ⟨_, _, _, -, -, -, herror⟩ :=
      split_cases template
    · exact ⟨row, hrow, ht, Except.ok.inj (hok.symm.trans h)⟩
    · cases h.symm.trans herror
    · cases h.symm.trans herror
  · rintro ⟨row, hrow, rfl, rfl⟩
    exact split_written hrow

/-- Which format strings have a field that is not blank, and none before
it that cannot be read. -/
theorem split_eq_fieldNotBare_iff : split template = .error (.fieldNotBare template) ↔
    ∃ (row : List Piece) (f : Field) (rest : Text), (∀ p ∈ row, p.IsBlank) ∧ f.isBlank = false ∧
      template = written row ++ (f.written ++ rest) := by
  constructor
  · intro h
    obtain ⟨_, -, -, hok⟩ | ⟨row, f, rest, hrow, hf, ht, -⟩ | ⟨_, _, _, -, -, -, herror⟩ :=
      split_cases template
    · cases h.symm.trans hok
    · exact ⟨row, f, rest, hrow, hf, ht⟩
    · cases h.symm.trans herror
  · rintro ⟨row, f, rest, hrow, hf, rfl⟩
    exact split_field hrow hf rest

/-! ## Escaping -/

/-- A text with each brace doubled. -/
def escape (t : Text) : Text := t.flatMap fun c => if isBrace c then [c, c] else [c]

/-- Segments as a format string: a bare field stands between any two. -/
def joined (ts : List Text) : Text := Text.join bareField (ts.map escape)

theorem joined_cons_cons (t u : Text) (ts : List Text) :
    joined (t :: u :: ts) = escape t ++ bareField ++ joined (u :: ts) :=
  Text.join_cons_cons _ _ _ _

/-- One more code point in the first segment. -/
theorem joined_cons (c : CodePoint) (t : Text) (ts : List Text) :
    joined ((c :: t) :: ts) = escape [c] ++ joined (t :: ts) := by
  have hescape : escape (c :: t) = escape [c] ++ escape t := by simp [escape]
  cases ts with
  | nil => exact hescape
  | cons u ts => simp only [joined_cons_cons, hescape, List.append_assoc]

/-- **What a row with bare fields only is written as** are its segments,
escaped and joined. -/
theorem joined_segments (hrow : ∀ p ∈ row, p.IsBare) : joined (segments row) = written row := by
  induction row with
  | nil => rfl
  | cons p row ih =>
    obtain ⟨hp, hrow⟩ := List.forall_mem_cons.1 hrow
    rw [written_cons, ← ih hrow]
    cases p with
    | ordinary c h =>
      refine (joined_cons _ _ _).trans ?_
      simp [escape, h, Piece.written, Piece.onto, segments]
    | doubled c h =>
      refine (joined_cons _ _ _).trans ?_
      simp [escape, h, Piece.written, Piece.onto, segments]
    | field f =>
      have hwritten : f.written = bareField := hp
      refine (joined_cons_cons _ _ _).trans ?_
      rw [Piece.written, hwritten]
      rfl

/-- A field with nothing between its braces. -/
def Field.bare : Field := ⟨[], none, none, .nil, nofun⟩

/-- More text before the first segment. -/
theorem exists_row_append {u : Text} {ts : List Text} (t : Text) (row : List Piece)
    (hrow : ∀ p ∈ row, p.IsBare) (h : segments row = u :: ts) :
    ∃ row', (∀ p ∈ row', p.IsBare) ∧ segments row' = (t ++ u) :: ts := by
  induction t with
  | nil => exact ⟨row, hrow, h⟩
  | cons c t ih =>
    obtain ⟨row, hrow, hsegments⟩ := ih
    obtain ⟨hfirst, hothers⟩ := List.cons.inj hsegments
    cases hc : isBrace c with
    | false =>
      refine ⟨.ordinary c hc :: row, List.forall_mem_cons.2 ⟨trivial, hrow⟩, ?_⟩
      rw [← hothers, List.cons_append, ← hfirst]
      rfl
    | true =>
      refine ⟨.doubled c hc :: row, List.forall_mem_cons.2 ⟨trivial, hrow⟩, ?_⟩
      rw [← hothers, List.cons_append, ← hfirst]
      rfl

/-- **Any segments** are those of a row with bare fields only. -/
theorem exists_row {ts : List Text} (hts : ts ≠ []) :
    ∃ row, (∀ p ∈ row, p.IsBare) ∧ segments row = ts := by
  induction ts with
  | nil => exact absurd rfl hts
  | cons t ts ih =>
    rw [← List.append_nil t]
    cases ts with
    | nil => exact exists_row_append t [] (List.forall_mem_nil _) rfl
    | cons u ts =>
      obtain ⟨row, hrow, hsegments⟩ := ih (List.cons_ne_nil u ts)
      refine exists_row_append t (.field .bare :: row) (List.forall_mem_cons.2 ⟨rfl, hrow⟩) ?_
      rw [← hsegments]
      rfl

theorem Piece.IsBare.isBlank (h : p.IsBare) : p.IsBlank := by
  cases p with
  | field f => exact f.isBlank_iff.2 (List.mem_cons.2 (.inl h))
  | _ => trivial

/-- **Splitting undoes escaping**, for any segments whatsoever. -/
theorem split_joined {ts : List Text} (hts : ts ≠ []) : split (joined ts) = .ok ts := by
  obtain ⟨row, hrow, rfl⟩ := exists_row hts
  rw [joined_segments hrow]
  exact split_written fun p hp => (hrow p hp).isBlank

/-! ## The grammar of bare fields -/

/-- A format string is split by the grammar that knows no field but the
bare one. -/
structure Conforms (template : Text) : Prop where
  /-- It is accepted exactly if it is a row of code points that are no
  braces, doubled braces and bare fields. -/
  accepts : (∃ ts, split template = .ok ts) ↔
    ∃ row, (∀ p ∈ row, p.IsBare) ∧ template = written row
  /-- If the first deviation is a complete field, that is reported. -/
  notBare : ∀ (row : List Piece) (f : Field) (rest : Text), (∀ p ∈ row, p.IsBare) →
    f.written ≠ bareField → template = written row ++ (f.written ++ rest) →
    split template = .error (.fieldNotBare template)
  /-- If it is no piece at all, the braces do not match. -/
  malformed : ∀ row rest, (∀ p ∈ row, p.IsBare) → Malformed rest →
    template = written row ++ rest → ∃ e, split template = .error (.braces e)
  /-- The segments are written as the format string. -/
  rejoined : ∀ ts, split template = .ok ts → joined ts = template

/-- A row of blank fields has bare fields only, or there is a first one
that is hollow. -/
theorem exists_first_hollow (hrow : ∀ p ∈ row, p.IsBlank) : (∀ p ∈ row, p.IsBare) ∨
    ∃ (before : List Piece) (t : Text) (rest : Text), (∀ p ∈ before, p.IsBare) ∧
      t ∈ hollowFields ∧ written row = written before ++ (t ++ rest) := by
  induction row with
  | nil => exact .inl (List.forall_mem_nil _)
  | cons p row ih =>
    obtain ⟨hp, hrow⟩ := List.forall_mem_cons.1 hrow
    by_cases hbare : p.IsBare
    · rcases ih hrow with hall | ⟨before, t, rest, hbefore, ht, hwritten⟩
      · exact .inl (List.forall_mem_cons.2 ⟨hbare, hall⟩)
      · refine .inr ⟨p :: before, t, rest, List.forall_mem_cons.2 ⟨hbare, hbefore⟩, ht, ?_⟩
        rw [written_cons, written_cons, hwritten, List.append_assoc]
    · cases p with
      | field f =>
        have hf := (List.mem_cons.1 (f.isBlank_iff.1 hp)).resolve_left hbare
        exact .inr ⟨[], f.written, written row, List.forall_mem_nil _, hf, written_cons _ _⟩
      | _ => exact absurd trivial hbare

/-- A hollow field is a field, and not the bare one. -/
theorem exists_of_mem_hollowFields (h : t ∈ hollowFields) :
    ∃ f : Field, f.written = t ∧ f.written ≠ bareField := by
  have hne : ∀ t ∈ hollowFields, t ≠ bareField := by decide
  obtain ⟨f, rfl⟩ : ∃ f : Field, f.written = t := by
    have hspec : ∀ s ∈ some ([] : Text), IsSpec s := fun s hs => Option.some.inj hs ▸ .nil
    simp only [hollowFields, List.mem_cons, List.not_mem_nil, or_false] at h
    rcases h with rfl | rfl | rfl
    · exact ⟨⟨[], none, some [], .nil, hspec⟩, rfl⟩
    · exact ⟨⟨[], some (.char '\x00'), none, .nil, nofun⟩, rfl⟩
    · exact ⟨⟨[], some (.char '\x00'), some [], .nil, hspec⟩, rfl⟩
  exact ⟨f, rfl, hne _ h⟩

/-- **Which format strings are split by the grammar of bare fields**: those
whose first deviation from it is no hollow field, and those that have, with
hollow fields passed over like bare ones, a field that is not blank. -/
theorem conforms_iff (template : Text) : Conforms template ↔
    ∀ row t rest, (∀ p ∈ row, p.IsBare) → t ∈ hollowFields →
      template = written row ++ (t ++ rest) →
      ∃ (row' : List Piece) (f : Field) (rest' : Text), (∀ p ∈ row', p.IsBlank) ∧
        f.isBlank = false ∧ template = written row' ++ (f.written ++ rest') := by
  constructor
  · intro h row t rest hrow ht htemplate
    obtain ⟨f, rfl, hne⟩ := exists_of_mem_hollowFields ht
    exact split_eq_fieldNotBare_iff.1 (h.notBare row f rest hrow hne htemplate)
  · intro h
    -- An accepted format string has bare fields only.
    have hbare : ∀ ts, split template = .ok ts →
        ∃ row, (∀ p ∈ row, p.IsBare) ∧ template = written row ∧ segments row = ts := by
      intro ts hts
      obtain ⟨row, hrow, rfl, hsegments⟩ := split_eq_ok_iff.1 hts
      rcases exists_first_hollow hrow with hall | ⟨before, t, rest, hbefore, ht, hwritten⟩
      · exact ⟨row, hall, rfl, hsegments⟩
      · cases hts.symm.trans
          (split_eq_fieldNotBare_iff.2 (h before t rest hbefore ht hwritten))
    constructor
    · constructor
      · rintro ⟨ts, hts⟩
        obtain ⟨row, hrow, ht, -⟩ := hbare ts hts
        exact ⟨row, hrow, ht⟩
      · rintro ⟨row, hrow, rfl⟩
        exact ⟨_, split_written fun p hp => (hrow p hp).isBlank⟩
    · intro row f rest hrow hne ht
      refine split_eq_fieldNotBare_iff.2 ?_
      cases hf : f.isBlank with
      | true =>
        have hhollow := (List.mem_cons.1 (f.isBlank_iff.1 hf)).resolve_left hne
        exact h row f.written rest hrow hhollow ht
      | false => exact ⟨row, f, rest, fun p hp => (hrow p hp).isBlank, hf, ht⟩
    · rintro row rest hrow hmalformed rfl
      exact split_malformed (fun p hp => (hrow p hp).isBlank) hmalformed
    · intro ts hts
      obtain ⟨row, hrow, rfl, rfl⟩ := hbare ts hts
      exact joined_segments hrow

/-- A hollow field is passed over where it stands alone. -/
theorem not_conforms_colon :
    split "\x7b:\x7d" = .ok [[], []] ∧ ¬ Conforms "\x7b:\x7d" := by
  have hsplit : split "\x7b:\x7d" = .ok [[], []] := by decide
  exact ⟨hsplit, fun h => absurd (h.rejoined _ hsplit) (by decide)⟩

end Format

end Splice
