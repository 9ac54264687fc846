import Splice.Template.Format
/-!
# Format strings — fields

A field is a name, perhaps a conversion and perhaps a specification
between two braces (`Format.Field`). The scanner reads a field to its end
and asks only whether there was anything in it (`Format.scan_field`). It
finds a field wherever there is one: if none begins behind an opening
brace, the braces do not match (`Format.scan_opened_error`).

Both are shown position by position: what may stand between a position and
the end of the field is passed over, and if the end does not come, that is
reported.
-/

namespace Splice

namespace Format

/-! ## What is between the braces -/

/-- What does not stand in the name of a field but between square brackets. -/
def reserved : Text := [.char '\x7b', .char '\x7d', .char '[', .char ':', .char '!']

/-- The name of a field: between square brackets, anything but the closing
one is part of it. -/
inductive IsName : Text → Prop
  | nil : IsName []
  | cons {c : CodePoint} {t : Text} : c ∉ reserved → IsName t → IsName (c :: t)
  | bracketed {key t : Text} : .char ']' ∉ key → IsName t →
      IsName (.char '[' :: (key ++ .char ']' :: t))

/-- The specification of a field: the braces in it come in pairs. -/
inductive IsSpec : Text → Prop
  | nil : IsSpec []
  | cons {c : CodePoint} {t : Text} : c ≠ .char '\x7b' → c ≠ .char '\x7d' → IsSpec t →
      IsSpec (c :: t)
  | nested {s t : Text} : IsSpec s → IsSpec t →
      IsSpec (.char '\x7b' :: (s ++ .char '\x7d' :: t))

/-- A complete field. -/
structure Field where
  /-- What stands first. -/
  name : Text
  /-- The code point behind an exclamation mark. -/
  conversion? : Option CodePoint
  /-- What stands behind a colon. -/
  spec? : Option Text
  isName : IsName name
  isSpec : ∀ s ∈ spec?, IsSpec s

/-- The conversion with its mark. -/
def conversionText : Option CodePoint → Text
  | none => []
  | some c => [.char '!', c]

/-- The specification with its mark. -/
def specText : Option Text → Text
  | none => []
  | some s => .char ':' :: s

namespace Field

/-- A field behind its opening brace. -/
def tail (f : Field) : Text :=
  f.name ++ (conversionText f.conversion? ++ (specText f.spec? ++ [.char '\x7d']))

/-- A field as it is written. -/
def written (f : Field) : Text := .char '\x7b' :: f.tail

/-- Whether no part of a field says anything: the null character is no
conversion. -/
def isBlank (f : Field) : Bool :=
  f.name.isEmpty && f.conversion?.all (decide <| · = .char '\x00') && f.spec?.all List.isEmpty

end Field

/-- The field with nothing between its braces. -/
def bareField : Text := Text.ofString "\x7b\x7d"

/-- The fields with parts between their braces of which none says anything. -/
def hollowFields : List Text :=
  [Text.ofString "\x7b:\x7d", Text.ofString "\x7b!\x00\x7d", Text.ofString "\x7b!\x00:\x7d"]

/-- **There are four blank fields.** -/
theorem Field.isBlank_iff (f : Field) :
    f.isBlank = true ↔ f.written ∈ bareField :: hollowFields := by
  have hfields : bareField :: hollowFields =
      [[.char '\x7b', .char '\x7d'], [.char '\x7b', .char ':', .char '\x7d'],
        [.char '\x7b', .char '!', .char '\x00', .char '\x7d'],
        [.char '\x7b', .char '!', .char '\x00', .char ':', .char '\x7d']] := rfl
  obtain ⟨name, conversion?, spec?, hname, hspec⟩ := f
  rw [hfields]
  cases hname with
  | nil =>
    cases conversion? with
    | none => cases spec? <;> simp [isBlank, written, tail, conversionText, specText]
    | some c => cases spec? <;> simp [isBlank, written, tail, conversionText, specText]
  | cons hc hname =>
    -- The name would begin with a mark of another part, or with the closing brace.
    simp only [reserved, List.mem_cons, List.not_mem_nil, or_false, not_or] at hc
    simp [isBlank, written, tail, hc]
  | bracketed hkey hname => simp [isBlank, written, tail]

/-! ## What one code point does -/

variable {p q : Position} {c d : CodePoint} {t rest : Text} {bare : Bool} {depth : Nat}

theorem scan_move (h : step p c = .ok (.move q)) : scan p (c :: rest) = scan q rest := by
  rw [scan, h]
  rfl

theorem scan_emit (h : step p c = .ok (.emit d)) :
    scan p (c :: rest) = (scan .literal rest).map fun r => (d :: r.1, r.2) := by
  rw [scan, h]
  rfl

theorem scan_error {e : Deviation} (h : step p c = .error e) : scan p (c :: rest) = .error e := by
  rw [scan, h]
  rfl

/-- What there is to do at the end of a field. -/
def closed (bare : Bool) (rest : Text) : Except Deviation (Text × List Text) :=
  if bare then (scan .literal rest).map fun r => ([], r.1 :: r.2) else .error .notBare

theorem scan_finish (h : step p c = finish bare) : scan p (c :: rest) = closed bare rest := by
  rw [scan, h]
  cases bare <;> rfl

theorem step_name (h : c ∉ reserved) : step (.name bare) c = .ok (.move (.name false)) := by
  simp only [reserved, List.mem_cons, List.not_mem_nil, or_false, not_or] at h
  simp [step, inName, h]

/-- A field begins behind an opening brace like a name. -/
theorem scan_opened (h : c ≠ .char '\x7b') :
    scan .opened (c :: t) = scan (.name true) (c :: t) := by
  rw [scan, scan, step, if_neg h]
  rfl

/-! ## Through a field -/

theorem scan_append_bracketed (h : .char ']' ∉ t) :
    scan .bracketed (t ++ .char ']' :: rest) = scan (.name false) rest := by
  induction t with
  | nil => exact scan_move rfl
  | cons c t ih =>
    rw [List.mem_cons, not_or] at h
    have hstep : step .bracketed c = .ok (.move .bracketed) := if_neg (Ne.symm h.1)
    rw [List.cons_append, scan_move hstep, ih h.2]

/-- A name is passed over. -/
theorem scan_append_name (h : IsName t) :
    scan (.name bare) (t ++ rest) = scan (.name (bare && t.isEmpty)) rest := by
  induction h generalizing bare with
  | nil => simp
  | cons hc _ ih =>
    rw [List.cons_append, scan_move (step_name hc), ih]
    simp
  | @bracketed key t hkey _ ih =>
    rw [List.cons_append, List.append_assoc, scan_move (q := .bracketed) rfl, List.cons_append,
      scan_append_bracketed hkey, ih]
    simp

/-- A specification is passed over, at any depth. -/
theorem scan_append_spec (h : IsSpec t) :
    scan (.spec bare depth) (t ++ rest) = scan (.spec (bare && t.isEmpty) depth) rest := by
  induction h generalizing bare depth rest with
  | nil => simp
  | cons hopen hclose _ ih =>
    rw [List.cons_append, scan_move (q := .spec false depth) ?_, ih]
    · simp
    · simp [step, hopen, hclose]
  | nested _ _ ihs iht =>
    rw [List.cons_append, scan_move (q := .spec false (depth + 1)) rfl, List.append_assoc, ihs,
      List.cons_append, scan_move (q := .spec false depth) rfl, iht]
    simp

/-- Behind the name or the conversion there is perhaps a specification, and
then the end. -/
theorem scan_ending (hcolon : step p (.char ':') = .ok (.move (.spec bare 0)))
    (hclose : step p (.char '\x7d') = finish bare) {spec? : Option Text}
    (hspec : ∀ s ∈ spec?, IsSpec s) :
    scan p (specText spec? ++ .char '\x7d' :: rest) =
      closed (bare && spec?.all List.isEmpty) rest := by
  cases spec? with
  | none =>
    rw [specText, List.nil_append, scan_finish hclose]
    simp
  | some s =>
    rw [specText, List.cons_append, scan_move hcolon, scan_append_spec (hspec s rfl),
      scan_finish rfl]
    rfl

/-- **A field is read to its end**, and is closed if there was nothing in it. -/
theorem scan_tail (f : Field) (rest : Text) :
    scan (.name true) (f.tail ++ rest) = closed f.isBlank rest := by
  simp only [Field.tail, List.append_assoc, List.singleton_append]
  rw [scan_append_name f.isName, Bool.true_and, Field.isBlank]
  cases f.conversion? with
  | none =>
    rw [conversionText, List.nil_append, scan_ending rfl rfl f.isSpec]
    simp
  | some c =>
    rw [conversionText, List.cons_append, List.singleton_append, scan_move rfl, scan_move rfl,
      scan_ending rfl rfl f.isSpec]
    simp

/-- No field begins like a doubled brace. -/
theorem Field.exists_tail (f : Field) : ∃ c t, f.tail = c :: t ∧ c ≠ .char '\x7b' := by
  obtain ⟨name, conversion?, spec?, hname, hspec⟩ := f
  cases hname with
  | nil =>
    cases conversion? with
    | none =>
      cases spec? with
      | none => exact ⟨_, _, rfl, by decide⟩
      | some s => exact ⟨_, _, rfl, by decide⟩
    | some c => exact ⟨_, _, rfl, by decide⟩
  | cons hc _ => exact ⟨_, _, rfl, fun h => hc (h ▸ List.mem_cons_self)⟩
  | bracketed _ _ => exact ⟨_, _, rfl, by decide⟩

theorem scan_field (f : Field) (rest : Text) :
    scan .literal (f.written ++ rest) = closed f.isBlank rest := by
  obtain ⟨c, t, ht, hc⟩ := f.exists_tail
  rw [← scan_tail, Field.written, List.cons_append, scan_move (q := .opened) rfl, ht,
    List.cons_append, scan_opened hc]

/-! ## Where no field ends -/

/-- The text has braces that do not match, read from the position. -/
def Breaks (p : Position) (t : Text) : Prop := ∃ e, scan p t = .error (.braces e)

theorem breaks_nil {e : BraceError} (h : atEnd p = some e) : Breaks p [] := ⟨e, by rw [scan, h]⟩

theorem Breaks.move (h : step p c = .ok (.move q)) (hq : Breaks q t) : Breaks p (c :: t) := by
  obtain ⟨e, he⟩ := hq
  exact ⟨e, (scan_move h).trans he⟩

/-- A specification that goes on behind so many closing braces. -/
def IsSpecFrom : Nat → Text → Prop
  | 0, t => IsSpec t
  | depth + 1, t => ∃ u v, t = u ++ .char '\x7d' :: v ∧ IsSpec u ∧ IsSpecFrom depth v

theorem IsSpecFrom.cons (hopen : c ≠ .char '\x7b') (hclose : c ≠ .char '\x7d')
    (h : IsSpecFrom depth t) : IsSpecFrom depth (c :: t) := by
  cases depth with
  | zero => exact .cons hopen hclose h
  | succ depth =>
    obtain ⟨u, v, rfl, hu, hv⟩ := h
    exact ⟨c :: u, v, rfl, .cons hopen hclose hu, hv⟩

/-- An opening brace takes one closing brace away. -/
theorem IsSpecFrom.nested (h : IsSpecFrom (depth + 1) t) :
    IsSpecFrom depth (.char '\x7b' :: t) := by
  obtain ⟨u, v, rfl, hu, hv⟩ := h
  cases depth with
  | zero => exact .nested hu hv
  | succ depth =>
    obtain ⟨w, v, rfl, hw, hv⟩ := hv
    exact ⟨.char '\x7b' :: (u ++ .char '\x7d' :: w), v, by simp, .nested hu hw, hv⟩

/-- A specification ends, or the braces do not match. -/
theorem spec_ends (bare : Bool) (depth : Nat) (t : Text) : Breaks (.spec bare depth) t ∨
    ∃ s rest, t = s ++ .char '\x7d' :: rest ∧ IsSpecFrom depth s := by
  induction t generalizing bare depth with
  | nil => exact .inl (breaks_nil rfl)
  | cons c t ih =>
    by_cases hopen : c = .char '\x7b'
    · subst hopen
      rcases ih false (depth + 1) with hbreaks | ⟨s, rest, rfl, hs⟩
      · exact .inl (hbreaks.move rfl)
      · exact .inr ⟨_, rest, rfl, hs.nested⟩
    by_cases hclose : c = .char '\x7d'
    · subst hclose
      cases depth with
      | zero => exact .inr ⟨[], t, rfl, .nil⟩
      | succ depth =>
        rcases ih false depth with hbreaks | ⟨s, rest, rfl, hs⟩
        · exact .inl (hbreaks.move rfl)
        · exact .inr ⟨.char '\x7d' :: s, rest, rfl, [], s, rfl, .nil, hs⟩
    · rcases ih false depth with hbreaks | ⟨s, rest, rfl, hs⟩
      · exact .inl (hbreaks.move (by simp [step, hopen, hclose]))
      · exact .inr ⟨c :: s, rest, rfl, hs.cons hopen hclose⟩

/-- The text begins with what may stand behind a conversion. -/
def HasEnding (t : Text) : Prop :=
  ∃ spec? rest, (∀ s ∈ spec?, IsSpec s) ∧ t = specText spec? ++ .char '\x7d' :: rest

/-- The text begins with a field but for its opening brace. -/
def HasTail (t : Text) : Prop := ∃ (f : Field) (rest : Text), t = f.tail ++ rest

/-- So it does behind the closing one of two square brackets. -/
def HasTailBehindBracket (t : Text) : Prop :=
  ∃ key rest, .char ']' ∉ key ∧ t = key ++ .char ']' :: rest ∧ HasTail rest

theorem HasEnding.hasTail (h : HasEnding t) : HasTail t := by
  obtain ⟨spec?, rest, hs, rfl⟩ := h
  exact ⟨⟨[], none, spec?, .nil, hs⟩, rest, by simp [Field.tail, conversionText]⟩

theorem HasEnding.conversion (h : HasEnding t) (c : CodePoint) : HasTail (.char '!' :: c :: t) := by
  obtain ⟨spec?, rest, hs, rfl⟩ := h
  exact ⟨⟨[], some c, spec?, .nil, hs⟩, rest, by simp [Field.tail, conversionText]⟩

theorem HasTail.cons (h : HasTail t) (hc : c ∉ reserved) : HasTail (c :: t) := by
  obtain ⟨f, rest, rfl⟩ := h
  exact ⟨⟨c :: f.name, f.conversion?, f.spec?, .cons hc f.isName, f.isSpec⟩, rest, rfl⟩

theorem HasTailBehindBracket.hasTail (h : HasTailBehindBracket t) : HasTail (.char '[' :: t) := by
  obtain ⟨key, _, hkey, rfl, f, rest, rfl⟩ := h
  exact ⟨⟨_, f.conversion?, f.spec?, .bracketed hkey f.isName, f.isSpec⟩, rest,
    by simp [Field.tail]⟩

theorem colon_ends (bare : Bool) (t : Text) :
    Breaks (.spec bare 0) t ∨ HasEnding (.char ':' :: t) := by
  rcases spec_ends bare 0 t with hbreaks | ⟨s, rest, rfl, hs⟩
  · exact .inl hbreaks
  · exact .inr ⟨some s, rest, fun _ hu => Option.some.inj hu ▸ hs, rfl⟩

theorem converted_ends (bare : Bool) (t : Text) : Breaks (.converted bare) t ∨ HasEnding t := by
  cases t with
  | nil => exact .inl (breaks_nil rfl)
  | cons c t =>
    by_cases hclose : c = .char '\x7d'
    · subst hclose
      exact .inr ⟨none, t, nofun, rfl⟩
    by_cases hcolon : c = .char ':'
    · subst hcolon
      exact (colon_ends bare t).imp_left (.move rfl)
    · exact .inl ⟨.afterConversion, scan_error (by simp [step, hclose, hcolon])⟩

theorem conversion_ends (bare : Bool) (t : Text) :
    Breaks (.conversion bare) t ∨ HasTail (.char '!' :: t) := by
  cases t with
  | nil => exact .inl (breaks_nil rfl)
  | cons c t =>
    rcases converted_ends (bare && c = .char '\x00') t with hbreaks | hending
    · exact .inl (hbreaks.move rfl)
    · exact .inr (hending.conversion c)

/-- **A field ends behind its name**, or the braces do not match. Within
square brackets in the name it is the same. -/
theorem name_ends (t : Text) :
    (∀ bare, Breaks (.name bare) t ∨ HasTail t) ∧
      (Breaks .bracketed t ∨ HasTailBehindBracket t) := by
  induction t with
  | nil => exact ⟨fun bare => .inl (breaks_nil rfl), .inl (breaks_nil rfl)⟩
  | cons c t ih =>
    constructor
    · intro bare
      by_cases hc : c ∈ reserved
      · simp only [reserved, List.mem_cons, List.not_mem_nil, or_false] at hc
        rcases hc with rfl | rfl | rfl | rfl | rfl
        · exact .inl ⟨.openingInName, scan_error rfl⟩
        · exact .inr (HasEnding.hasTail ⟨none, t, nofun, rfl⟩)
        · exact ih.2.imp (.move rfl) HasTailBehindBracket.hasTail
        · exact (colon_ends bare t).imp (.move rfl) HasEnding.hasTail
        · exact (conversion_ends bare t).imp_left (.move rfl)
      · exact (ih.1 false).imp (.move (step_name hc)) (.cons · hc)
    · by_cases hc : c = .char ']'
      · subst hc
        rcases ih.1 false with hbreaks | htail
        · exact .inl (hbreaks.move rfl)
        · exact .inr ⟨[], t, List.not_mem_nil, rfl, htail⟩
      · rcases ih.2 with hbreaks | ⟨key, rest, hkey, rfl, htail⟩
        · exact .inl (hbreaks.move (if_neg hc))
        · exact .inr ⟨c :: key, rest, by simp [Ne.symm hc, hkey], rfl, htail⟩

/-- **Where no field begins behind an opening brace**, and no doubled one
does, the braces do not match. -/
theorem scan_opened_error (hfield : ¬ HasTail t) (hdoubled : t.head? ≠ some (.char '\x7b')) :
    Breaks .opened t := by
  cases t with
  | nil => exact breaks_nil rfl
  | cons c t =>
    have hc : c ≠ .char '\x7b' := fun h => hdoubled (congrArg some h)
    rcases (name_ends (c :: t)).1 true with ⟨e, he⟩ | htail
    · exact ⟨e, (scan_opened hc).trans he⟩
    · exact absurd htail hfield

end Format

end Splice
