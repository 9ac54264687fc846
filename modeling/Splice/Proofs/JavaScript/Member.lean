import Splice.Proofs.JavaScript.Formula
/-!
# JavaScript — member chains

A member chain is a name and accesses behind it, each a dot before an
identifier or brackets around a string literal. `MemberChain` is the
syntax tree, `MemberChain.text` is how it is written, and
`MemberChain.keys?` is what the keys are, in code units, if the brackets
hold literals.

A chain can be read off its text (`MemberChain.text_inj`). An identifier
ends where a dot or a bracket comes next, and a literal ends at the quote
at which a reader stops, whatever comes after it, so no content of a
literal can close the brackets around it.
-/

namespace Splice

namespace JavaScript

/-! ## Literals and identifiers in front of other text -/

namespace StringLiteral

variable {old : Bool} {p : Place} {t rest : Text} {us : List Nat}

/-- **What comes after a literal does not change how it is read.** -/
theorem read_append (h : read old p t = some (us, rest)) (more : Text) :
    read old p (t ++ more) = some (us, rest ++ more) := by
  induction t generalizing p us with
  | nil => cases h
  | cons c t ih =>
    rw [read] at h
    rw [List.cons_append, read]
    cases hstep : step old p c with
    | none => simp [hstep] at h
    | some action =>
      rw [hstep] at h
      cases action with
      | close =>
        cases h
        rfl
      | go vs q =>
        obtain ⟨⟨ws, rest'⟩, hread, hr⟩ := Option.map_eq_some_iff.1 h
        cases hr
        simp only [ih hread]
        rfl

end StringLiteral

/-- Two literals in front of other text are one. -/
theorem literal_unique {t u r s : Text} {us vs : List Nat} (ht : stringValue? t = some us)
    (hu : stringValue? u = some vs) (h : t ++ r = u ++ s) : t = u := by
  have hread : ∀ {t : Text} {us : List Nat}, stringValue? t = some us → ∃ body,
      t = .char '"' :: body ∧ StringLiteral.read false .between body = some (us, []) := by
    intro t us ht
    cases t with
    | nil => cases ht
    | cons c body =>
      rw [stringValue?] at ht
      split at ht
      · subst c
        split at ht
        · cases ht
          exact ⟨body, rfl, by assumption⟩
        · cases ht
      · cases ht
  obtain ⟨body, rfl, hbody⟩ := hread ht
  obtain ⟨body', rfl, hbody'⟩ := hread hu
  have hcontent : body ++ r = body' ++ s := (List.cons.inj h).2
  have hrest : ([] : Text) ++ r = [] ++ s := by
    have hr := StringLiteral.read_append hbody r
    rw [hcontent, StringLiteral.read_append hbody' s] at hr
    exact (Prod.mk.inj (Option.some.inj hr)).2.symm
  exact List.append_cancel_right (h.trans (congrArg _ hrest.symm))

/-- Two names in front of text that does not go on with them are one. -/
theorem name_unique {n m : Name} {r s : Text} (hr : Ends r) (hs : Ends s)
    (h : n.text ++ r = m.text ++ s) : n = m := by
  have hsplit := splitWord_append (isIdentifierPart_of_mem (n := n)) hr
  rw [h, splitWord_append isIdentifierPart_of_mem hs] at hsplit
  exact Name.ext (Prod.mk.inj hsplit).1.symm

/-! ## Chains -/

/-- An access to a member, as it is written. -/
inductive Access
  /-- A dot before an identifier. -/
  | dot (key : Name)
  /-- Brackets around a literal. -/
  | bracket (literal : Text)
deriving DecidableEq

namespace Access

/-- The text of an access. -/
def text : Access → Text
  | dot n => .char '.' :: n.text
  | bracket t => .char '[' :: t ++ [.char ']']

/-- The key of an access in code units, unless the brackets hold no literal. -/
def key? : Access → Option (List Nat)
  | dot n => some n.text.units
  | bracket t => stringValue? t

/-- The access to a key: by a dot if the key is an identifier, and by its
literal otherwise. -/
def ofKey (k : Text) : Access :=
  if h : k.isIdentifier = true then dot ⟨k, h⟩ else bracket k.literal

theorem ofKey_of_isIdentifier {k : Text} (h : k.isIdentifier = true) : ofKey k = dot ⟨k, h⟩ :=
  dif_pos h

theorem ofKey_of_not_isIdentifier {k : Text} (h : k.isIdentifier = false) :
    ofKey k = bracket k.literal := dif_neg (by simp [h])

/-- **The access to a key names the key.** -/
theorem key?_ofKey (k : Text) : (ofKey k).key? = some k.units := by
  cases h : k.isIdentifier with
  | true => rw [ofKey_of_isIdentifier h, key?]
  | false =>
    rw [ofKey_of_not_isIdentifier h]
    exact stringValue?_of_isString k.isString_literal

/-- A dot stands before identifiers and before nothing else. -/
theorem ofKey_eq_dot_iff {k : Text} : (∃ n, ofKey k = dot n) ↔ k.isIdentifier = true := by
  constructor
  · rintro ⟨n, hn⟩
    rw [← Bool.not_eq_false]
    intro h
    rw [ofKey_of_not_isIdentifier h] at hn
    cases hn
  · exact fun h => ⟨_, ofKey_of_isIdentifier h⟩

/-- Different keys have different accesses, also if they are the same in
code units. -/
theorem ofKey_injective : Function.Injective ofKey := by
  intro k l h
  cases hk : k.isIdentifier <;> cases hl : l.isIdentifier
  · rw [ofKey_of_not_isIdentifier hk, ofKey_of_not_isIdentifier hl] at h
    exact Text.literal_injective (bracket.inj h)
  · rw [ofKey_of_not_isIdentifier hk, ofKey_of_isIdentifier hl] at h
    cases h
  · rw [ofKey_of_isIdentifier hk, ofKey_of_not_isIdentifier hl] at h
    cases h
  · rw [ofKey_of_isIdentifier hk, ofKey_of_isIdentifier hl] at h
    cases h
    rfl

/-- Accesses do not go on with an identifier. -/
theorem ends_flatMap (as : List Access) : Ends (as.flatMap text) := by
  cases as with
  | nil => exact nofun
  | cons a as => cases a <;> (rintro _ ⟨⟩; decide)

variable {a b : Access} {as bs : List Access} {us vs : List Nat}

/-- Two accesses in front of others are one. -/
theorem text_unique (ha : a.key? = some us) (hb : b.key? = some vs)
    (h : a.text ++ as.flatMap text = b.text ++ bs.flatMap text) : a = b := by
  cases a with
  | dot n => cases b with
    | dot m =>
      have hnames : n.text ++ as.flatMap text = m.text ++ bs.flatMap text := (List.cons.inj h).2
      rw [name_unique (ends_flatMap as) (ends_flatMap bs) hnames]
    | bracket u => cases h
  | bracket t => cases b with
    | dot m => cases h
    | bracket u =>
      have hliterals : t ++ [.char ']'] ++ as.flatMap text = u ++ [.char ']'] ++ bs.flatMap text :=
        (List.cons.inj h).2
      rw [List.append_assoc, List.append_assoc] at hliterals
      rw [literal_unique ha hb hliterals]

end Access

/-- A member chain: a name, and the accesses behind it. -/
@[ext]
structure MemberChain where
  /-- The name that the chain begins with. -/
  root : Name
  /-- The accesses. -/
  accesses : List Access

namespace MemberChain

/-- The text of a chain. -/
def text (c : MemberChain) : Text := c.root.text ++ c.accesses.flatMap Access.text

/-- The keys of a chain in code units, unless brackets hold no literal. -/
def keys? (c : MemberChain) : Option (List (List Nat)) := c.accesses.mapM Access.key?

/-- The chain from a name to a key behind others. -/
def ofKeys (d : Name) (keys : List Text) : MemberChain := ⟨d, keys.map Access.ofKey⟩

theorem keys?_ofKeys (d : Name) (keys : List Text) :
    (ofKeys d keys).keys? = some (keys.map Text.units) := by
  rw [ofKeys, keys?]
  induction keys with
  | nil => rfl
  | cons k keys ih =>
    rw [List.map_cons, List.mapM_cons, Access.key?_ofKey, ih]
    rfl

theorem ofKeys_inj {d d' : Name} {keys keys' : List Text} (h : ofKeys d keys = ofKeys d' keys') :
    d' = d ∧ keys' = keys := by
  obtain ⟨hroot, haccesses⟩ := MemberChain.mk.inj h
  exact ⟨hroot.symm, (Access.ofKey_injective.list_map haccesses).symm⟩

/-- **A chain can be read off its text.** -/
theorem text_inj {c d : MemberChain} {ks ls : List (List Nat)} (hc : c.keys? = some ks)
    (hd : d.keys? = some ls) (h : c.text = d.text) : c = d := by
  obtain ⟨n, as⟩ := c
  obtain ⟨m, bs⟩ := d
  obtain rfl : n = m := name_unique (Access.ends_flatMap as) (Access.ends_flatMap bs) h
  have haccesses : as.flatMap Access.text = bs.flatMap Access.text := List.append_cancel_left h
  have hnonempty : ∀ (a : Access) (r : Text), a.text ++ r ≠ [] := by
    intro a r
    cases a <;> exact nofun
  suffices as = bs by rw [this]
  clear h
  simp only [keys?] at hc hd
  induction as generalizing ks ls bs with
  | nil => cases bs with
    | nil => rfl
    | cons b bs => exact absurd haccesses.symm (hnonempty b _)
  | cons a as ih => cases bs with
    | nil => exact absurd haccesses (hnonempty a _)
    | cons b bs =>
      rw [List.mapM_cons] at hc hd
      obtain ⟨us, ha, hc⟩ := Option.bind_eq_some_iff.1 hc
      obtain ⟨vs, hb, hd⟩ := Option.bind_eq_some_iff.1 hd
      obtain ⟨kss, has, -⟩ := Option.bind_eq_some_iff.1 hc
      obtain ⟨lss, hbs, -⟩ := Option.bind_eq_some_iff.1 hd
      rw [List.flatMap_cons, List.flatMap_cons] at haccesses
      obtain rfl := Access.text_unique ha hb haccesses
      rw [ih has bs hbs (List.append_cancel_left haccesses)]

end MemberChain

end JavaScript

end Splice
