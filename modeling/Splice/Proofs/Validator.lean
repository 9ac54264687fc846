import Splice.Proofs.Validator.Check
import Mathlib.Data.List.Permutation
/-!
# Validators — the generated function

The body of a validator is put together in two loops, each turn of which
splices one more check behind those that are there (`Build.behind_puts`).
A turn changes no older object, so the schema is read as it was, and the
text and the uses of the body are those of the checks, added up
(`Build.addPresence_puts`, `Build.addLengths_puts`).

So the report on a schema has one check for each entry, in order, and tells
how often each of the two names is used (`Reachable.report_schema`).
-/

namespace Splice

open Build Folded JavaScript Store

namespace Validator

variable {s s' : Store} {schema : Value} {props : List Text} {limits : List (Text × Int)}

/-! ## What a schema and a validator are -/

/-- The entries of a map of greatest lengths. -/
def limitEntries (limits : List (Text × Int)) : List (Value × Value) :=
  limits.map fun p => (.text p.1, .scalar (.int p.2))

/-- The value is a schema with these required properties and these greatest
lengths, both in order. -/
inductive IsSchema (s : Store) (props : List Text) (limits : List (Text × Int)) : Value → Prop
  /-- A map with a list and a map in it. -/
  | map {r q w : Ref} {es : List (Value × Value)} : s.get r = .dict es →
      s.valueAt es (.text "required") = .ok (.object q) → s.get q = .list (props.map .text) →
      s.valueAt es (.text "maxLength") = .ok (.object w) → s.get w = .dict (limitEntries limits) →
      (∀ p ∈ limits, isPrintableInt p.2 = true) → IsSchema s props limits (.object r)

/-- The text is a function with these checks as its body: one for each
required property, and then one for each greatest length. -/
def IsValidator (props : List Text) (limits : List (Text × Int)) (t : Text) : Prop :=
  ∃ ts us, List.Forall₂ IsPresenceCheck props ts ∧ List.Forall₂ IsLengthCheck limits us ∧
    t = "function validate(data) \x7b\n  const errors = [];\n" ++ (ts.flatten ++ us.flatten ++
      Text.ofString "  return errors;\n\x7d\n")

/-! ## Reading a schema -/

/-- A text is the same key as itself only. -/
theorem sameKey_text_right (s : Store) (v : Value) (t : Text) :
    s.sameKey v (.text t) = decide (v = .text t) := by
  by_cases h : v = .text t
  · simp [sameKey, sameOr, h]
  · cases v <;> simp_all [sameKey, sameOr, equal, equalTo]

/-- The value under a text does not depend on any object. -/
theorem valueAt_text_congr (s s' : Store) (es : List (Value × Value)) (t : Text) :
    s.valueAt es (.text t) = s'.valueAt es (.text t) := by
  simp only [valueAt, sameKey_text_right]

/-- A schema stays one when the store grows. -/
theorem IsSchema.grows (h : IsSchema s props limits schema) (hgrows : s.Grows s') :
    IsSchema s' props limits schema := by
  obtain ⟨hr, hrequired, hq, hlengths, hw, hprintable⟩ := h
  exact .map (hgrows.get hr nofun) ((valueAt_text_congr s' s _ _).trans hrequired)
    (hgrows.get hq nofun) ((valueAt_text_congr s' s _ _).trans hlengths) (hgrows.get hw nofun)
    hprintable

variable {σ : Session}

theorem field_of_dict {r : Ref} {es : List (Value × Value)} {key : String} {v : Value}
    (hr : σ.store.get r = .dict es)
    (hv : σ.store.valueAt es (.text (Text.ofString key)) = .ok v) :
    field (.object r) key σ = .ok v σ :=
  read_of_ok (by simpa only [hr] using hv)

/-- The required properties of a schema can be read. -/
theorem IsSchema.required (h : IsSchema σ.store props limits schema) :
    ∃ q, field schema "required" σ = .ok (.object q) σ ∧
      σ.store.get q = .list (props.map .text) := by
  obtain ⟨hr, hrequired, hq, -, -, -⟩ := h
  exact ⟨_, field_of_dict hr hrequired, hq⟩

/-- The greatest lengths of a schema can be read. -/
theorem IsSchema.lengths (h : IsSchema σ.store props limits schema) :
    ∃ w, field schema "maxLength" σ = .ok (.object w) σ ∧
      entries (.object w) σ = .ok (limitEntries limits) σ := by
  obtain ⟨hr, -, -, hlengths, hw, -⟩ := h
  exact ⟨_, field_of_dict hr hlengths, read_of_ok (by simp only [hw])⟩

theorem IsSchema.printable (h : IsSchema s props limits schema) :
    ∀ p ∈ limits, isPrintableInt p.2 = true := by
  obtain ⟨-, -, -, -, -, hprintable⟩ := h
  exact hprintable

end Validator

namespace Build

open Validator

variable {σ τ : Session} {hand hand' : List Value} {body check : Value} {t u : Text}
  {d e d' e' : Nat}

/-! ## The body -/

/-- **A check is spliced behind the others.** -/
theorem behind_puts (h : σ.store.Sound hand) (hcode : σ.store.isExpression body = .ok false)
    (hbody : σ.store.PutsIn body t (uses d e))
    (hcheck : σ.store.Puts τ.store hand' check u (uses d' e')) :
    ∃ v υ hand', code (.ofStrings ["", "", ""]) [body, check] τ = .ok v υ ∧
      σ.store.Puts υ.store hand' v (t ++ u) (uses (d + d') (e + e')) := by
  let pieces : List (Text × (Name → Nat) × Text) := [(t, uses d e, []), (u, uses d' e', [])]
  have hargs : List.Forall₂ (fun v p => τ.store.PutsIn v p.1 p.2.1) [body, check] pieces :=
    .cons (hbody.develops h hcheck.develops) (.cons hcheck.putsIn .nil)
  have hrecent : ∀ v ∈ [body, check], σ.store.Recent τ.store v :=
    List.forall_mem_cons.2 ⟨.of_code (hcheck.grows.isExpression hcode),
      List.forall_mem_singleton.2 (.of_code hcheck.isCode)⟩
  obtain ⟨v, υ, hrun, hputs⟩ :=
    code_puts (t := []) h hcheck.grows hcheck.develops hcheck.sound hargs hrecent
  have htext : ([] : Text) ++ pieces.flatMap (fun p => p.1 ++ p.2.2) = t ++ u := by simp [pieces]
  have huses : (fun n => (pieces.map fun p => p.2.1 n).sum) = uses (d + d') (e + e') := by
    funext n
    simp [pieces, uses_add]
  rw [htext, huses] at hputs
  exact ⟨v, υ, _, hrun, hputs⟩

/-- **The presence checks** from a position on. -/
theorem addPresence_puts {q : Ref} {props remaining : List Text} {i : Nat}
    (h : σ.store.Sound hand) (hq : σ.store.get q = .list (props.map .text))
    (hremaining : props.drop i = remaining) (hcode : σ.store.isExpression body = .ok false)
    (hbody : σ.store.PutsIn body t (uses d e)) :
    ∃ v τ hand' ts,
      addPresence (.name data) (.name errors) (.object q) remaining.length i body σ = .ok v τ ∧
      List.Forall₂ IsPresenceCheck remaining ts ∧
      σ.store.Puts τ.store hand' v (t ++ ts.flatten)
        (uses (d + remaining.length) (e + remaining.length)) := by
  -- On what remains, for any body so far: each turn reads the list anew and splices one check.
  induction remaining generalizing σ hand i body t d e with
  | nil => exact ⟨body, σ, hand, [], rfl, .nil, h, .refl _, .refl _, hcode, by simpa using hbody⟩
  | cons prop remaining ih =>
    have helements : elements (.object q) σ = .ok (props.map .text) σ :=
      read_of_ok (f := fun s => s.elements (.object q)) (by simp [Store.elements, hq])
    have hprop : (props.map Item.text)[i]? = some (.text prop : Value) := by
      rw [List.getElem?_map, ← List.head?_drop, hremaining]
      rfl
    obtain ⟨check, σ₁, hand₁, u, hcheck, hu, hputs₁⟩ := presenceCheck_puts h prop
    obtain ⟨body₁, σ₂, hand₂, hbody₁, hputs₂⟩ := behind_puts h hcode hbody hputs₁
    have hremaining' : props.drop (i + 1) = remaining := by
      rw [← List.tail_drop, hremaining]
      rfl
    obtain ⟨v, τ, hand₃, ts, hrun, hts, hputs₃⟩ :=
      ih hputs₂.sound (hputs₂.grows.get_list hq) hremaining' hputs₂.isCode hputs₂.putsIn
    refine ⟨v, τ, hand₃, u :: ts, ?_, .cons hu hts, ?_⟩
    · rw [List.length_cons, addPresence, bind_of_ok helements, hprop]
      exact (bind_of_ok hcheck).trans ((bind_of_ok hbody₁).trans hrun)
    · have hputs := hputs₃.after h hputs₂.grows hputs₂.develops
      simpa [Nat.add_assoc, Nat.add_comm 1] using hputs

/-- **The length checks.** -/
theorem addLengths_puts {limits : List (Text × Int)} (h : σ.store.Sound hand)
    (hprintable : ∀ p ∈ limits, isPrintableInt p.2 = true)
    (hcode : σ.store.isExpression body = .ok false)
    (hbody : σ.store.PutsIn body t (uses d e)) :
    ∃ v τ hand' us,
      addLengths (.name data) (.name errors) (limitEntries limits) body σ = .ok v τ ∧
      List.Forall₂ IsLengthCheck limits us ∧
      σ.store.Puts τ.store hand' v (t ++ us.flatten)
        (uses (d + 2 * limits.length) (e + limits.length)) := by
  induction limits generalizing σ hand body t d e with
  | nil => exact ⟨body, σ, hand, [], rfl, .nil, h, .refl _, .refl _, hcode, by simpa using hbody⟩
  | cons p limits ih =>
    obtain ⟨hp, hlimits⟩ := List.forall_mem_cons.1 hprintable
    obtain ⟨check, σ₁, hand₁, u, hcheck, hu, hputs₁⟩ := lengthCheck_puts h p.1 hp
    obtain ⟨body₁, σ₂, hand₂, hbody₁, hputs₂⟩ := behind_puts h hcode hbody hputs₁
    obtain ⟨v, τ, hand₃, us, hrun, hus, hputs₃⟩ :=
      ih hputs₂.sound hlimits hputs₂.isCode hputs₂.putsIn
    refine ⟨v, τ, hand₃, u :: us, ?_, .cons hu hus, ?_⟩
    · exact (bind_of_ok hcheck).trans ((bind_of_ok hbody₁).trans hrun)
    · have hputs := hputs₃.after h hputs₂.grows hputs₂.develops
      have hd : d + 2 + 2 * limits.length = d + 2 * (p :: limits).length := by
        rw [List.length_cons]
        omega
      have he : e + 1 + limits.length = e + (p :: limits).length := by
        rw [List.length_cons]
        omega
      rw [hd, he, List.append_assoc] at hputs
      exact hputs

/-! ## The function -/

/-- Nothing is put in, and nothing is used. -/
theorem nil_puts (h : σ.store.Sound hand) :
    σ.store.isExpression nil = .ok false ∧ σ.store.PutsIn nil [] (uses 0 0) := by
  obtain ⟨hr, hq⟩ := h.blank
  have hnone : namesIn [.text []] = uses 0 0 := by
    rw [namesIn_of_forall_ne (by simp)]
    funext n
    simp [uses]
  rw [← hnone]
  exact ⟨by simp [nil, isExpression, hr], .fragment hr hq rfl (Item.renderAll_singleton rfl)⟩

/-- **The function around the checks.** -/
theorem function_puts {s : Store} (h : s.Sound hand)
    (hbody : s.Puts σ.store hand' body t (uses d e)) :
    ∃ v τ hand',
      code (.ofStrings ["function validate(", ") \x7b\n  const ", " = [];\n", "  return ",
        ";\n\x7d\n"]) [.name data, .name errors, body, .name errors] σ = .ok v τ ∧
      s.Puts τ.store hand' v
        ("function validate(data) \x7b\n  const errors = [];\n" ++ (t ++
          Text.ofString "  return errors;\n\x7d\n")) (uses (1 + d) (2 + e)) := by
  let pieces : List (Text × (Name → Nat) × Text) :=
    [(data.text, namesIn [.name data], ") \x7b\n  const "),
      (errors.text, namesIn [.name errors], " = [];\n"), (t, uses d e, "  return "),
      (errors.text, namesIn [.name errors], ";\n\x7d\n")]
  have hargs : List.Forall₂ (fun v p => σ.store.PutsIn v p.1 p.2.1)
      [.name data, .name errors, body, .name errors] pieces :=
    .cons (.name data) (.cons (.name errors) (.cons hbody.putsIn (.cons (.name errors) .nil)))
  have hrecent : ∀ v ∈ [.name data, .name errors, body, .name errors],
      s.Recent σ.store v :=
    List.forall_mem_cons.2 ⟨.of_code rfl, List.forall_mem_cons.2 ⟨.of_code rfl,
      List.forall_mem_cons.2 ⟨.of_code hbody.isCode,
        List.forall_mem_singleton.2 (.of_code rfl)⟩⟩⟩
  obtain ⟨v, τ, hrun, hputs⟩ := code_puts (t := "function validate(") h hbody.grows hbody.develops
    hbody.sound hargs hrecent
  have hopening : Text.ofString "function validate(" ++ data.text ++
      Text.ofString ") \x7b\n  const " ++ errors.text ++ Text.ofString " = [];\n" =
        "function validate(data) \x7b\n  const errors = [];\n" := by decide +kernel
  have hclosing : Text.ofString "  return " ++ errors.text ++ Text.ofString ";\n\x7d\n" =
      "  return errors;\n\x7d\n" := by decide +kernel
  have htext : Text.ofString "function validate(" ++ pieces.flatMap (fun p => p.1 ++ p.2.2) =
      "function validate(data) \x7b\n  const errors = [];\n" ++ (t ++
        Text.ofString "  return errors;\n\x7d\n") := by
    rw [← hopening, ← hclosing]
    simp only [pieces, List.flatMap_cons, List.flatMap_nil, List.append_assoc, List.append_nil]
  have huses : (fun n => (pieces.map fun p => p.2.1 n).sum) = uses (1 + d) (2 + e) := by
    funext n
    simp only [pieces, uses, List.map_cons, List.map_nil, List.sum_cons, List.sum_nil]
    ring
  rw [htext, huses] at hputs
  exact ⟨v, τ, _, hrun, hputs⟩

/-- **A schema has a validator.** -/
theorem generate_puts {schema : Value} {props : List Text} {limits : List (Text × Int)}
    (h : σ.store.Sound hand) (hschema : IsSchema σ.store props limits schema) :
    ∃ v τ hand' t, generate schema σ = .ok v τ ∧ IsValidator props limits t ∧
      σ.store.Puts τ.store hand' v t
        (uses (1 + props.length + 2 * limits.length) (2 + props.length + limits.length)) := by
  obtain ⟨q, hrequired, hq⟩ := hschema.required
  have helements : elements (.object q) σ = .ok (props.map .text) σ :=
    read_of_ok (f := fun s => s.elements (.object q)) (by simp [Store.elements, hq])
  obtain ⟨hcode, hnil⟩ := nil_puts h
  obtain ⟨body₁, σ₁, hand₁, ts, hbody₁, hts, hputs₁⟩ :=
    addPresence_puts (i := 0) h hq List.drop_zero hcode hnil
  -- The schema is read again, as it was.
  obtain ⟨w, hlengths, hw⟩ := (hschema.grows hputs₁.grows).lengths
  obtain ⟨body₂, σ₂, hand₂, us, hbody₂, hus, hputs₂⟩ :=
    addLengths_puts hputs₁.sound hschema.printable hputs₁.isCode hputs₁.putsIn
  obtain ⟨v, τ, hand₃, hrun, hputs⟩ :=
    function_puts h (hputs₂.after h hputs₁.grows hputs₁.develops)
  have hdata : name (.text "data") σ = .ok (.name data) σ := rfl
  have herrors : name (.text "errors") σ = .ok (.name errors) σ := rfl
  have hcount : (props.map (Item.text : Text → Value)).length = props.length := List.length_map _
  simp only [Nat.zero_add, ← Nat.add_assoc, List.nil_append] at hputs
  refine ⟨v, τ, hand₃, _, ?_, ⟨ts, us, hts, hus, rfl⟩, hputs⟩
  rw [generate, bind_of_ok hdata, bind_of_ok herrors, bind_of_ok hrequired, bind_of_ok helements,
    hcount, bind_of_ok hbody₁, bind_of_ok hlengths, bind_of_ok hw, bind_of_ok hbody₂]
  exact hrun

end Build

/-! ## The report -/

namespace Validator

open Usage

variable {m : Usage} {d e : Nat}

/-- The usage map of a validator. -/
theorem tallies_uses (hd : 0 < d) (he : 0 < e) :
    Tallies [entry data d, entry errors e] (uses d e) := by
  have huses : uses d e = Function.update (Function.update (fun _ => 0) errors e) data d := by
    funext n
    have hne : data ≠ errors := by decide
    simp only [uses, namesIn_name, Function.update_apply]
    by_cases hdata : n = data
    · simp [hdata, hne]
    · simp [hdata]
  rw [huses]
  exact .cons (Function.update_of_ne (by decide) _ _) hd (.cons rfl he .nil)

/-- The uses are listed by name. -/
theorem usageLines_of_perm (s : Store) (hm : m.Perm [entry data d, entry errors e])
    (hd : isPrintableInt d = true) (he : isPrintableInt e = true) :
    usageLines s m =
      .ok (line ("  data: " ++ Text.ofInt d) ++ line ("  errors: " ++ Text.ofInt e)) := by
  have hkeys : m.all hasTextKey = true := by
    rw [hm.all_eq]
    rfl
  have hsorted : m.mergeSort comesBefore = [entry data d, entry errors e] := by
    rcases List.perm_pair.1 hm with rfl | rfl <;> cbv
  have hcount {n : Name} {k : Nat} (hk : isPrintableInt k = true) :
      s.plainText (entry n k).2 = .ok (Text.ofInt k) := by
    rw [entry, Store.plainText, Scalar.display, if_pos hk]
  have hname (n : Name) (k : Nat) : s.plainText (entry n k).1 = .ok n.text := rfl
  rw [usageLines, if_pos hkeys, hsorted]
  simp only [List.mapM_cons, List.mapM_nil, hname, hcount hd, hcount he]
  change Except.ok (_ ++ (_ ++ [])) = _
  rw [List.append_nil]
  rfl

end Validator

namespace Reachable

open Validator

/-- **Every schema has the right validator.** At any point of any history,
the report on a schema can be made. The function that it shows has a
presence check for each required property and then a length check for each
greatest length, in the order of the schema, and the report tells how often
its two names are used. -/
theorem report_schema {σ : Session} {hand : List Value} {schema : Value} {props : List Text}
    {limits : List (Text × Int)} (h : Reachable σ hand)
    (hschema : IsSchema σ.store props limits schema) :
    let d := 1 + props.length + 2 * limits.length
    let e := 2 + props.length + limits.length
    ∃ v τ t m, generate schema σ = .ok v τ ∧ τ.store.codeText v = .ok t ∧
      IsValidator props limits t ∧ τ.store.usesOf v = .ok m ∧
      m.Perm [(.text "data", .scalar (.int d)), (.text "errors", .scalar (.int e))] ∧
      (isPrintableInt d = true → isPrintableInt e = true → report schema σ =
        .ok (rule '=' 60 ++ line "Validator Generation Example" ++ rule '=' 60 ++ line [] ++
          line "Generated source:" ++ rule '-' 40 ++ line t ++ line "Name usage:" ++ rule '-' 40 ++
          (line ("  data: " ++ Text.ofInt d) ++ line ("  errors: " ++ Text.ofInt e))) τ) := by
  intro d e
  obtain ⟨v, τ, hand', t, hrun, ht, hputs⟩ := generate_puts h.sound hschema
  obtain ⟨htext, m, hm, htallies⟩ := hputs.putsIn.codeText hputs.sound hputs.isCode
  have hperm := htallies.perm (tallies_uses (by omega) (by omega))
  refine ⟨v, τ, t, m, hrun, htext, ht, hm, hperm, fun hd he => ?_⟩
  have hlines : (do usageLines τ.store (← τ.store.usesOf v)) =
      .ok (line ("  data: " ++ Text.ofInt d) ++ line ("  errors: " ++ Text.ofInt e)) := by
    rw [hm]
    exact usageLines_of_perm τ.store hperm hd he
  rw [Validator.report, bind_of_ok hrun, bind_of_ok (read_of_ok htext),
    bind_of_ok (read_of_ok (f := fun s => do usageLines s (← s.usesOf v)) hlines)]
  rfl

/-- The validator of a schema with two required properties, one of them no
identifier, and one greatest length. -/
theorem report_sample :
    let s : Store := ((Store.initial.push (.list [.text "id", .text "display-name"])).push
      (.dict [(.text "id", .scalar (.int 8))])).push
      (.dict [(.text "required", .object ⟨2⟩), (.text "maxLength", .object ⟨3⟩)])
    let props : List Text := ["id", "display-name"]
    let limits : List (Text × Int) := [("id", 8)]
    (Reachable ⟨s, []⟩ [.object ⟨4⟩, .object ⟨3⟩, .object ⟨2⟩, nil] ∧
        IsSchema s props limits (.object ⟨4⟩)) ∧
      ∃ τ t, IsValidator props limits t ∧ report (.object ⟨4⟩) ⟨s, []⟩ =
        .ok (rule '=' 60 ++ line "Validator Generation Example" ++ rule '=' 60 ++ line [] ++
          line "Generated source:" ++ rule '-' 40 ++ line t ++ line "Name usage:" ++ rule '-' 40 ++
          (line "  data: 5" ++ line "  errors: 5")) τ := by
  intro s props limits
  have hreach : Reachable ⟨s, []⟩ [.object ⟨4⟩, .object ⟨3⟩, .object ⟨2⟩, nil] :=
    .data (.data (.data .start rfl) rfl) rfl
  have hschema : IsSchema s props limits (.object ⟨4⟩) :=
    .map rfl rfl rfl rfl rfl (List.forall_mem_singleton.2 (isPrintableInt_of_lt (by decide)))
  obtain ⟨v, τ, t, m, -, -, ht, -, -, hreport⟩ := hreach.report_schema hschema
  have hdata : 1 + props.length + 2 * limits.length = 5 := rfl
  have herrors : 2 + props.length + limits.length = 5 := rfl
  rw [hdata, herrors] at hreport
  exact ⟨⟨hreach, hschema⟩, τ, t, ht,
    hreport (isPrintableInt_of_lt (by decide)) (isPrintableInt_of_lt (by decide))⟩

end Reachable

end Splice
