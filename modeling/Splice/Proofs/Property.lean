import Splice.Proofs.Code
import Splice.Proofs.JavaScript.Member
/-!
# Properties — paths of accesses

The access to a property is spliced behind the code of an object, and a
path does so for one key after the other (`Build.path`). What code values
print when they are spliced (`Store.Prints`) is the text of a template
between its segments (`Build.code_prints`), so a path prints the member
chain of its keys (`Build.path_prints`).

The text of a path is read as a member chain in one way, with the name
and the keys it was built from (`Build.path_decodable`). Paths with other
keys have other texts, even where two keys are the same in code units.
-/

namespace Splice

/-- Spliced into code, the value adds this text. -/
def Store.Prints (s : Store) (v : Value) (t : Text) : Prop :=
  ∃ xs ts, s.Splices v xs ∧
    List.Forall₂ (fun x t => ∀ print, Item.render print x = .ok t) xs ts ∧ ts.flatten = t

namespace Store

variable {s s' : Store} {v : Value} {t : Text}

theorem prints_name (s : Store) (n : Name) : s.Prints (.name n) n.text :=
  ⟨[.name n], [n.text], .name n, .cons (fun _ => rfl) .nil, by simp⟩

theorem prints_text (s : Store) (t : Text) : s.Prints (.text t) t.literal :=
  ⟨[.text t.literal], [t.literal], s.splices_text t, .cons (fun _ => rfl) .nil, by simp⟩

/-- What a code value prints is its text. -/
theorem Prints.codeText (h : s.Prints v t) (hcode : s.isCode v = true) : s.codeText v = .ok t := by
  obtain ⟨xs, ts, hsplices, hts, rfl⟩ := h
  cases hsplices with
  | name n =>
    cases hts with
    | cons hn hnil =>
      cases hnil
      cases hn fun _ => .error .tooDeep
      simp [Store.codeText]
  | scalar c => cases hcode
  | literal hbare _ =>
    cases v with
    | scalar c => cases hcode
    | _ => cases hbare.symm.trans hcode
  | fragment hholds => exact hholds.codeText hts

/-- A code value prints the same in a store that has grown. -/
theorem Prints.grows (h : s.Prints v t) (hcode : s.isCode v = true) (hgrows : s.Grows s') :
    s'.Prints v t := by
  obtain ⟨xs, ts, hsplices, hts, rfl⟩ := h
  refine ⟨xs, ts, ?_, hts, rfl⟩
  cases hsplices with
  | name n => exact .name n
  | scalar c => exact .scalar c
  | literal hbare _ =>
    cases v with
    | scalar c => cases hcode
    | _ => cases hbare.symm.trans hcode
  | fragment hholds => exact .fragment (hholds.grows hgrows)

end Store

namespace Build

open JavaScript

variable {σ : Session}

/-- The blocks that arguments splice, with the texts they print between
segments. -/
theorem exists_blocks_of_prints {s : Store} {args : List Value} {rest : List (Text × Text)}
    (h : List.Forall₂ (fun arg p => s.Prints arg p.1) args rest) :
    ∃ blocks : List (List Value × Text), blocks.map Prod.snd = rest.map Prod.snd ∧
      List.Forall₂ (fun arg p => s.Splices arg p.1) args blocks ∧
      ∃ ts, List.Forall₂ (fun x t => ∀ print, Item.render print x = .ok t)
          (blocks.flatMap fun p => p.1 ++ [.text p.2]) ts ∧
        ts.flatten = rest.flatMap fun p => p.1 ++ p.2 := by
  induction h with
  | nil => exact ⟨[], rfl, .nil, [], .nil, rfl⟩
  | @cons arg p args rest hprints _ ih =>
    obtain ⟨xs, us, hsplices, hus, hp⟩ := hprints
    obtain ⟨blocks, hsegments, hblocks, ts, hts, htext⟩ := ih
    refine ⟨(xs, p.2) :: blocks, by simp [hsegments], .cons hsplices hblocks,
      us ++ [p.2] ++ ts, ?_, by simp [← hp, htext]⟩
    rw [List.flatMap_cons]
    exact List.rel_append (List.rel_append hus (.cons (fun _ => rfl) .nil)) hts

/-- **Code prints its segments with what its arguments print between them.** -/
theorem code_prints {segments : Segments} {args : List Value} {t : Text}
    {rest : List (Text × Text)} (hsegments : segments.Are σ.store (t :: rest.map Prod.snd))
    (hargs : List.Forall₂ (fun arg p => σ.store.Prints arg p.1) args rest) :
    ∃ v τ, code segments args σ = .ok v τ ∧ τ.store.isCode v = true ∧
      τ.store.Prints v (t ++ rest.flatMap fun p => p.1 ++ p.2) ∧ σ.store.Grows τ.store := by
  obtain ⟨blocks, hsame, hblocks, ts, hts, htext⟩ := exists_blocks_of_prints hargs
  rw [← hsame] at hsegments
  obtain ⟨v, τ, hv, hholds, hgrows, -⟩ := code_of_splices hsegments hblocks
  exact ⟨v, τ, hv, hholds.isCode, ⟨_, t :: ts, .fragment hholds, .cons (fun _ => rfl) hts,
    by rw [List.flatten_cons, htext]⟩, hgrows⟩

/-- The access to a key prints the access. -/
theorem property_prints (k : Text) :
    ∃ v τ, property (.text k) σ = .ok v τ ∧ τ.store.isCode v = true ∧
      τ.store.Prints v (Access.ofKey k).text ∧ σ.store.Grows τ.store := by
  cases h : k.isIdentifier with
  | true =>
    let s' := σ.store.push (.list [.text (.char '.' :: k)])
    let o : Object := .fragment (.object σ.store.next) (.scalar .null) false
    have hlist : s'.get σ.store.next = .list [.text (.char '.' :: k)] := Store.get_push_next
    have hgrows : s'.Grows (s'.push o) := s'.grows_push o
    have hholds : (s'.push o).Holds (.object s'.next) [.text (.char '.' :: k)] false :=
      .fragment Store.get_push_next (hgrows.get hlist nofun) .none
    refine ⟨.object s'.next, ⟨s'.push o, σ.log⟩, ?_, hholds.isCode,
      ⟨_, [.char '.' :: k], .fragment hholds, .cons (fun _ => rfl) .nil, ?_⟩,
      (σ.store.grows_push _).trans hgrows⟩
    · rw [property, h]
      rfl
    · rw [Access.ofKey_of_isIdentifier h]
      simp [Access.text]
  | false =>
    have hsegments : (Segments.ofStrings ["[", "]"]).Are σ.store
        (Text.ofString "[" :: [(k.literal, Text.ofString "]")].map Prod.snd) := rfl
    obtain ⟨v, τ, hv, hcode, hprints, hgrows⟩ :=
      code_prints hsegments (.cons (σ.store.prints_text k) .nil)
    refine ⟨v, τ, ?_, hcode, ?_, hgrows⟩
    · rw [property, h]
      exact hv
    · rw [Access.ofKey_of_not_isIdentifier h]
      simpa [Access.text, Text.ofString] using hprints

/-- The access to a key behind the code of an object. -/
def member (object : Value) (key : Text) : Build Value := do
  let access ← property (.text key)
  code (.ofStrings ["", "", ""]) [object, access]

/-- The path from a name to a key behind others. -/
def path (d : Name) (keys : List Text) : Build Value := keys.foldlM member (.name d)

/-- An access behind an object prints behind it. -/
theorem member_prints {object : Value} {t : Text} (hcode : σ.store.isCode object = true)
    (h : σ.store.Prints object t) (k : Text) :
    ∃ v τ, member object k σ = .ok v τ ∧ τ.store.isCode v = true ∧
      τ.store.Prints v (t ++ (Access.ofKey k).text) := by
  obtain ⟨access, τ, haccess, -, hprints, hgrows⟩ := property_prints (σ := σ) k
  have hsegments : (Segments.ofStrings ["", "", ""]).Are τ.store
      (([] : Text) :: [(t, []), ((Access.ofKey k).text, [])].map Prod.snd) := rfl
  obtain ⟨v, υ, hv, hcode, htext, -⟩ :=
    code_prints hsegments (.cons (h.grows hcode hgrows) (.cons hprints .nil))
  refine ⟨v, υ, ?_, hcode, by simpa using htext⟩
  rw [member, bind_of_ok haccess]
  exact hv

/-- **A path prints the member chain of its keys.** -/
theorem path_prints (d : Name) (keys : List Text) :
    ∃ v τ, path d keys σ = .ok v τ ∧
      τ.store.codeText v = .ok (MemberChain.ofKeys d keys).text := by
  suffices ∀ (keys : List Text) {σ : Session} {object : Value} {t : Text},
      σ.store.isCode object = true → σ.store.Prints object t → ∃ v τ,
        keys.foldlM member object σ = .ok v τ ∧
          τ.store.codeText v = .ok (t ++ (keys.map Access.ofKey).flatMap Access.text) from
    this keys rfl (σ.store.prints_name d)
  intro keys
  induction keys with
  | nil =>
    intro σ object t hcode h
    exact ⟨object, σ, rfl, by simpa using h.codeText hcode⟩
  | cons k keys ih =>
    intro σ object t hcode h
    obtain ⟨v, τ, hv, hcode', h'⟩ := member_prints hcode h k
    obtain ⟨w, υ, hw, htext⟩ := ih hcode' h'
    refine ⟨w, υ, ?_, by simpa using htext⟩
    rw [List.foldlM_cons, bind_of_ok hv, hw]

/-- **Paths are decodable.** The text of a path is read as a member chain
in exactly one way: the chain begins with the name of the path, its
accesses name the keys in order, and a dot stands exactly where the key is
an identifier. No other path has that text. -/
theorem path_decodable (σ : Session) (d : Name) (keys : List Text) :
    ∃ v τ t, path d keys σ = .ok v τ ∧ τ.store.codeText v = .ok t ∧
      (∃ c : MemberChain, c.text = t ∧ c.root = d ∧ c.keys? = some (keys.map Text.units) ∧
        List.Forall₂ (fun k a => (∃ n, a = .dot n) ↔ k.isIdentifier = true) keys c.accesses ∧
        ∀ (c' : MemberChain) (ks : List (List Nat)), c'.text = t → c'.keys? = some ks → c' = c) ∧
      ∀ (σ' : Session) (d' : Name) (keys' : List Text) (v' : Value) (τ' : Session),
        path d' keys' σ' = .ok v' τ' → τ'.store.codeText v' = .ok t → d' = d ∧ keys' = keys := by
  obtain ⟨v, τ, hv, htext⟩ := path_prints (σ := σ) d keys
  have hkeys := MemberChain.keys?_ofKeys d keys
  refine ⟨v, τ, _, hv, htext, ⟨.ofKeys d keys, rfl, rfl, hkeys, ?_, ?_⟩, ?_⟩
  · rw [MemberChain.ofKeys, List.forall₂_map_right_iff]
    exact List.forall₂_same.2 fun k _ => Access.ofKey_eq_dot_iff
  · intro c ks hc hks
    exact MemberChain.text_inj hks hkeys hc
  · intro σ' d' keys' v' τ' hv' htext'
    obtain ⟨w, υ, hw, hwtext⟩ := path_prints (σ := σ') d' keys'
    cases hv'.symm.trans hw
    have hsame := Except.ok.inj (hwtext.symm.trans htext')
    exact MemberChain.ofKeys_inj (MemberChain.text_inj hkeys (MemberChain.keys?_ofKeys d' keys')
      hsame.symm)

/-- A path of an identifier, the empty key, one that would close its
brackets, and a pair of surrogates, which is one character in code units. -/
theorem path_decodable_seams :
    let d : Name := ⟨"x", by decide⟩
    let keys : List Text :=
      ["a", [], "\"].b", [.surrogate 61, .surrogate 1536]]
    let t : Text := "x.a[\"\"][\"\\\"].b\"][\"\\ud83d\\ude00\"]"
    ∃ v τ, path d keys ⟨⟨#[]⟩, []⟩ = .ok v τ ∧ τ.store.codeText v = .ok t ∧
      ∀ (σ' : Session) (d' : Name) (keys' : List Text) (v' : Value) (τ' : Session),
        path d' keys' σ' = .ok v' τ' → τ'.store.codeText v' = .ok t → d' = d ∧ keys' = keys := by
  intro d keys t
  obtain ⟨v, τ, u, hv, htext, -, hother⟩ := path_decodable ⟨⟨#[]⟩, []⟩ d keys
  obtain ⟨w, υ, hw, hwtext⟩ := path_prints (σ := ⟨⟨#[]⟩, []⟩) d keys
  cases hv.symm.trans hw
  have hchain : (MemberChain.ofKeys d keys).text = t := by decide +kernel
  obtain rfl : u = t := (Except.ok.inj (htext.symm.trans hwtext)).trans hchain
  exact ⟨v, τ, hv, htext, hother⟩

end Build

end Splice
