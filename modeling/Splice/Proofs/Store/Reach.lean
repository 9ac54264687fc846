import Splice.Proofs.Build
import Splice.Template
/-!
# Store — what a value depends on

A value reaches the objects that it refers to, those that these refer to,
and so on (`Store.Reaches`). Its tree is made of nothing else, so it is
the same in two stores that agree on all objects the value reaches
(`Store.datum_congr`), and so is the text that a list of plain data is
joined to (`Store.joinElements_congr`). Plain data reaches no fragment
(`Store.IsPlain`): fragments print by their items and not by their trees.
What has a literal refers to nothing that is not there
(`Store.live_of_reaches`).
-/

namespace Splice

/-- The values that an object holds. -/
def Object.parts : Object → List Value
  | .list xs => xs
  | .tuple xs => xs
  | .dict es => es.map Prod.fst ++ es.map Prod.snd
  | .fragment items used _ => [items, used]
  | .tracked used text? => used :: text?.toList
  | .foreign _ text? => text?.toList

/-- Whether an object is a fragment. -/
def Object.isFragment : Object → Bool
  | .fragment .. => true
  | _ => false

namespace Store

/-- The value refers to the object, directly or through other objects. -/
inductive Reaches (s : Store) : Value → Ref → Prop
  /-- A reference reaches its object. -/
  | here (r : Ref) : Reaches s (.object r) r
  /-- It reaches what a part of its object reaches. -/
  | through {r r' : Ref} {v : Value} : v ∈ (s.get r).parts → Reaches s v r' →
      Reaches s (.object r) r'

/-- Data that reaches no fragment. -/
def IsPlain (s : Store) (v : Value) : Prop :=
  ∀ r, s.Reaches v r → (s.get r).isFragment = false

variable {s s' : Store} {v : Value}

theorem IsPlain.part {r : Ref} (h : s.IsPlain (.object r)) (hv : v ∈ (s.get r).parts) :
    s.IsPlain v := fun r' hr' => h r' (.through hv hr')

/-- Two stores agree on all that a value reaches. -/
def AgreeOn (s s' : Store) (v : Value) : Prop := ∀ r, s.Reaches v r → s'.get r = s.get r

theorem AgreeOn.part {r : Ref} (h : s.AgreeOn s' (.object r)) (hv : v ∈ (s.get r).parts) :
    s.AgreeOn s' v := fun r' hr' => h r' (.through hv hr')

/-- What a value reaches does not change if nothing of it does. -/
theorem AgreeOn.reaches {r : Ref} (h : s.AgreeOn s' v) (hr : s'.Reaches v r) : s.Reaches v r := by
  induction hr with
  | here r => exact .here r
  | @through r r' v hv _ ih =>
    rw [h r (.here r)] at hv
    exact .through hv (ih (h.part hv))

/-- **The tree of a value** is made of what the value reaches. -/
theorem unfold_congr (fuel : Nat) (path : List Ref) (h : s.AgreeOn s' v) :
    s'.unfold fuel path v = s.unfold fuel path v := by
  induction fuel generalizing path v with
  | zero => cases v <;> rfl
  | succ fuel ih =>
    cases v with
    | name n => rfl
    | text t => rfl
    | scalar c => rfl
    | object r =>
      have hr : s'.get r = s.get r := h r (.here r)
      have hpart : ∀ x ∈ (s.get r).parts,
          s'.unfold fuel (r :: path) x = s.unfold fuel (r :: path) x :=
        fun x hx => ih (r :: path) (h.part hx)
      simp only [unfold, back, hr]
      split
      · rfl
      · -- Each kind of object unfolds part by part.
        cases hobject : s.get r with
        | list xs =>
          simp only [hobject, Object.parts] at hpart ⊢
          rw [List.map_congr_left hpart]
        | tuple xs =>
          simp only [hobject, Object.parts] at hpart ⊢
          rw [List.map_congr_left hpart]
        | dict es =>
          simp only [hobject, Object.parts, List.mem_append, List.mem_map] at hpart ⊢
          refine congrArg Datum.dict (List.map_congr_left fun e he => ?_)
          rw [hpart e.1 (.inl ⟨e, he, rfl⟩), hpart e.2 (.inr ⟨e, he, rfl⟩)]
        | fragment items used isExpression =>
          simp only [hobject, Object.parts, List.mem_cons, List.not_mem_nil, or_false] at hpart ⊢
          rw [hpart items (.inl rfl), hpart used (.inr rfl)]
        | tracked used text? =>
          simp only [hobject, Object.parts] at hpart ⊢
          rw [List.map_congr_left hpart]
        | foreign kind text? => rfl

theorem datum_congr (h : s.AgreeOn s' v) : s'.datum v = s.datum v :=
  unfold_congr Datum.reach [] h

theorem isCode_congr (h : s.AgreeOn s' v) : s'.isCode v = s.isCode v := by
  cases v with
  | object r => simp only [isCode, h r (.here r)]
  | _ => rfl

theorem goesInBare_congr (h : s.AgreeOn s' v) : s'.goesInBare v = s.goesInBare v := by
  cases v with
  | scalar c => rfl
  | _ => exact isCode_congr h

theorem listed?_congr (h : s.AgreeOn s' v) : s'.listed? v = s.listed? v := by
  cases v with
  | object r => simp only [listed?, h r (.here r)]
  | _ => rfl

/-- Plain data is rendered by its tree. -/
theorem render_congr (h : s.AgreeOn s' v) (hv : s.IsPlain v) : s'.render v = s.render v := by
  cases v with
  | object r =>
    have hplain := hv r (.here r)
    have hprint : ∀ {t : Store}, t.get r = s.get r →
        t.render (.object r) = t.display (.object r) := by
      intro t hr
      rw [render, Item.render, print, printWith, hr]
      cases hobject : s.get r <;> simp_all [Object.isFragment]
    rw [hprint (h r (.here r)), hprint rfl, display, display, datum_congr h]
  | _ => rfl

/-- The elements of a list are parts of it. -/
theorem mem_parts_of_listed? {r : Ref} {xs : List Value} (h : s.listed? (.object r) = some xs) :
    (s.get r).parts = xs := by
  cases hobject : s.get r <;> simp_all [listed?, Object.parts]

/-- **The text that a list of plain data is joined to** depends on what it
reaches alone. -/
theorem joinElements_congr {xs : List Value} (h : s.AgreeOn s' v) (hv : s.IsPlain v)
    (hxs : s.listed? v = some xs) : s'.joinElements xs = s.joinElements xs := by
  cases v with
  | object r =>
    have hparts := mem_parts_of_listed? hxs
    have helement : ∀ x ∈ xs, s'.elementText x = s.elementText x := by
      intro x hx
      rw [← hparts] at hx
      have hrender := render_congr (h.part hx) (hv.part hx)
      unfold elementText
      split
      · rfl
      · exact hrender
    have hrow : ∀ {ys : List Value}, (∀ y ∈ ys, s'.elementText y = s.elementText y) →
        ys.mapM s'.elementText = ys.mapM s.elementText := by
      intro ys hys
      induction ys with
      | nil => rfl
      | cons y ys ih =>
        obtain ⟨hy, hys⟩ := List.forall_mem_cons.1 hys
        rw [List.mapM_cons, List.mapM_cons, hy, ih hys]
    rw [joinElements, joinElements, hrow helement]
  | _ => cases hxs

end Store

/-! ## What has a literal -/

namespace Datum

variable {depth : Nat}

/-- Each value in a row has been written. -/
theorem exists_of_encodeItems {ds : List Datum} {ts : List Text}
    (h : encodeItems depth ds = .ok ts) : ∀ d ∈ ds, ∃ t, d.encodeTo depth = .ok t := by
  induction ds generalizing ts with
  | nil => exact nofun
  | cons d ds ih =>
    rw [encodeItems] at h
    obtain ⟨t, ht, h⟩ := exists_of_bind_eq_ok h
    obtain ⟨us, hus, -⟩ := exists_of_bind_eq_ok h
    exact List.forall_mem_cons.2 ⟨⟨t, ht⟩, ih hus⟩

/-- And so have each key and each value of a map. -/
theorem exists_of_encodeEntries {es : List (Datum × Datum)} {ts : List Text}
    (h : encodeEntries depth es = .ok ts) :
    ∀ e ∈ es, (∃ k, e.1.keyText = .ok k) ∧ ∃ t, e.2.encodeTo depth = .ok t := by
  induction es generalizing ts with
  | nil => exact nofun
  | cons e es ih =>
    rw [encodeEntries] at h
    obtain ⟨k, hk, h⟩ := exists_of_bind_eq_ok h
    obtain ⟨t, ht, h⟩ := exists_of_bind_eq_ok h
    obtain ⟨us, hus, -⟩ := exists_of_bind_eq_ok h
    exact List.forall_mem_cons.2 ⟨⟨⟨k, hk⟩, t, ht⟩, ih hus⟩

end Datum

namespace Store

variable {s : Store} {v : Value} {r : Ref} {fuel depth : Nat} {path : List Ref} {t : Text}

/-- No object is written as a key. -/
theorem keyText_unfold_object : (s.unfold fuel path (.object r)).keyText ≠ .ok t := by
  cases fuel with
  | zero => exact nofun
  | succ fuel =>
    rw [unfold]
    split
    · exact nofun
    · cases s.get r <;> exact nofun

/-- An object that is written is data, and its parts are written too, or are
keys. -/
theorem parts_of_encodeTo (h : (s.unfold fuel path (.object r)).encodeTo depth = .ok t) :
    s.Live r ∧ ∀ x ∈ (s.get r).parts, ∃ fuel depth path,
      (∃ u, (s.unfold fuel path x).encodeTo depth = .ok u) ∨
        ∃ u, (s.unfold fuel path x).keyText = .ok u := by
  cases fuel with
  | zero => cases h
  | succ fuel =>
    rw [unfold] at h
    split at h
    · rw [back] at h
      cases hobject : s.get r <;> rw [hobject] at h <;> cases h
    cases hobject : s.get r with
    | list xs =>
      rw [hobject] at h
      cases depth with
      | zero => cases h
      | succ depth =>
        obtain ⟨ts, hts, -⟩ := exists_of_bind_eq_ok h
        refine ⟨live_of_list hobject, fun x hx => ⟨fuel, depth, r :: path, .inl ?_⟩⟩
        exact Datum.exists_of_encodeItems hts _ (List.mem_map_of_mem hx)
    | tuple xs =>
      rw [hobject] at h
      cases depth with
      | zero => cases h
      | succ depth =>
        obtain ⟨ts, hts, -⟩ := exists_of_bind_eq_ok h
        refine ⟨live_of_get hobject nofun, fun x hx => ⟨fuel, depth, r :: path, .inl ?_⟩⟩
        exact Datum.exists_of_encodeItems hts _ (List.mem_map_of_mem hx)
    | dict es =>
      rw [hobject] at h
      cases depth with
      | zero => cases h
      | succ depth =>
        obtain ⟨ts, hts, -⟩ := exists_of_bind_eq_ok h
        have hentry := Datum.exists_of_encodeEntries hts
        refine ⟨live_of_dict hobject, fun x hx => ⟨fuel, depth, r :: path, ?_⟩⟩
        rcases List.mem_append.1 hx with hx | hx
        · obtain ⟨e, he, rfl⟩ := List.mem_map.1 hx
          exact .inr (hentry _ (List.mem_map_of_mem he)).1
        · obtain ⟨e, he, rfl⟩ := List.mem_map.1 hx
          exact .inl (hentry _ (List.mem_map_of_mem he)).2
    | _ =>
      rw [hobject] at h
      cases h

/-- **What has a literal refers to nothing that is not there.** -/
theorem live_of_reaches (hr : s.Reaches v r) (h : (s.datum v).encode = .ok t) : s.Live r := by
  suffices ∀ {fuel depth path t}, (s.unfold fuel path v).encodeTo depth = .ok t → s.Live r by
    rw [Datum.encode] at h
    cases hu : (s.datum v).encodeTo Datum.maxDepth with
    | ok u => exact this hu
    | error e =>
      rw [hu] at h
      cases h
  clear h
  induction hr with
  | here r => exact fun h => (parts_of_encodeTo h).1
  | @through r r' v hv hr' ih =>
    intro fuel depth path t h
    obtain ⟨fuel', depth', path', ⟨u, hu⟩ | ⟨u, hu⟩⟩ := (parts_of_encodeTo h).2 _ hv
    · exact ih hu
    · cases hr' <;> exact absurd hu keyText_unfold_object

end Store

end Splice
