import Splice.Template
import Mathlib.Logic.Relation
/-!
# Templates — templates inside templates

Code may be an argument of other code, and so on. A tree of calls
(`CodeTree`) has values at its leaves and a template at each call, and it
is built from the left and from the inside (`CodeTree.build`). Its text,
given the texts of its leaves, is what stands in its segments and in its
arguments, one after the other (`Template.text`).

A call inside another one can be inlined: its template takes its place in
the one around it, and the segments at the two borders are glued
(`Template.Inlines`). Inlining keeps the leaves and the text
(`Template.Inlines.leaves`, `Template.Inlines.text`), and ends in a
template without calls (`Template.inlines_flat`).
-/

namespace Splice

mutual

/-- A tree of calls that build code. -/
inductive CodeTree
  /-- A value. -/
  | leaf (v : Value)
  /-- A call. -/
  | code (template : Template)

/-- The segments of a call, with the arguments between them. -/
inductive Template
  /-- The last segment. -/
  | last (t : Text)
  /-- A segment, the argument behind it, and what follows. -/
  | next (t : Text) (argument : CodeTree) (rest : Template)

end

namespace Template

/-- The segments. -/
def segments : Template → List Text
  | last t => [t]
  | next t _ rest => t :: rest.segments

/-- The first segment. -/
def first : Template → Text
  | last t => t
  | next t _ _ => t

/-- Two templates one behind the other, the last segment of the first and
the first of the second glued. -/
def append : Template → Template → Template
  | last t, last u => last (t ++ u)
  | last t, next u a rest => next (t ++ u) a rest
  | next t a rest, p => next t a (rest.append p)

/-- A call inside a template is replaced by what it is a call of. -/
inductive Inlines : Template → Template → Prop
  /-- A call that is an argument. -/
  | here (t : Text) (p rest : Template) :
      Inlines (next t (.code p) rest) (((last t).append p).append rest)
  /-- A call inside an argument. -/
  | inside {p q : Template} (t : Text) (rest : Template) : Inlines p q →
      Inlines (next t (.code p) rest) (next t (.code q) rest)
  /-- A call further right. -/
  | later {p q : Template} (t : Text) (a : CodeTree) : Inlines p q →
      Inlines (next t a p) (next t a q)

end Template

mutual

/-- The values at the leaves, from the left. -/
def CodeTree.leaves : CodeTree → List Value
  | .leaf v => [v]
  | .code p => p.leaves

/-- The values at the leaves, from the left. -/
def Template.leaves : Template → List Value
  | .last _ => []
  | .next _ a rest => a.leaves ++ rest.leaves

end

mutual

/-- The text, given those of the leaves. -/
def CodeTree.text (text : Value → Text) : CodeTree → Text
  | .leaf v => text v
  | .code p => p.text text

/-- **The segments with the texts of the arguments between them.** -/
def Template.text (text : Value → Text) : Template → Text
  | .last t => t
  | .next t a rest => t ++ a.text text ++ rest.text text

end

mutual

/-- The template without calls. -/
def CodeTree.flat : CodeTree → Template
  | .leaf v => .next [] (.leaf v) (.last [])
  | .code p => p.flat

/-- The template without calls. -/
def Template.flat : Template → Template
  | .last t => .last t
  | .next t a rest => ((Template.last t).append a.flat).append rest.flat

end

mutual

/-- Makes the calls, those inside first and from the left. -/
def CodeTree.build : CodeTree → Build Value
  | .leaf v => return v
  | .code p => do
    let args ← p.buildArgs
    Build.code (.ofTexts p.segments) args

/-- The arguments of a call, from the left. -/
def Template.buildArgs : Template → Build (List Value)
  | .last _ => return []
  | .next _ a rest => do
    let arg ← a.build
    let args ← rest.buildArgs
    return arg :: args

end

namespace Template

open Relation

variable {p q r : Template} {t : Text} {f : Value → Text}

theorem leaves_append : ∀ p q : Template, (p.append q).leaves = p.leaves ++ q.leaves
  | last t, q => by cases q <;> simp [append, leaves]
  | next t a rest, q => by simp [append, leaves, leaves_append rest q]

theorem text_append (f : Value → Text) :
    ∀ p q : Template, (p.append q).text f = p.text f ++ q.text f
  | last t, q => by cases q <;> simp [append, Template.text]
  | next t a rest, q => by simp [append, Template.text, text_append f rest q]

/-- Inlining keeps the leaves. -/
theorem Inlines.leaves (h : Inlines p q) : q.leaves = p.leaves := by
  induction h with
  | here t p rest => simp [leaves_append, Template.leaves, CodeTree.leaves]
  | inside t rest _ ih => simp [Template.leaves, CodeTree.leaves, ih]
  | later t a _ ih => simp [Template.leaves, ih]

/-- **Inlining keeps the text.** -/
theorem Inlines.text (h : Inlines p q) (f : Value → Text) : q.text f = p.text f := by
  induction h with
  | here t p rest => simp [text_append, Template.text, CodeTree.text]
  | inside t rest _ ih => simp [Template.text, CodeTree.text, ih]
  | later t a _ ih => simp [Template.text, ih]

theorem append_assoc : ∀ p q r : Template, (p.append q).append r = p.append (q.append r)
  | last t, q, r => by cases q <;> cases r <;> simp [append]
  | next t a rest, q, r => by simp [append, append_assoc rest q r]

@[simp] theorem last_nil_append (p : Template) : (last []).append p = p := by
  cases p <;> rfl

/-- What can be inlined in a template can be inlined behind another one. -/
theorem Inlines.append_left (h : Inlines q r) : ∀ p : Template, Inlines (p.append q) (p.append r)
  | last t => by
    cases h with
    | here u p rest =>
      have hglued : (last t).append (((last u).append p).append rest) =
          ((last (t ++ u)).append p).append rest := by
        rw [← append_assoc, ← append_assoc]
        rfl
      rw [hglued]
      exact .here (t ++ u) p rest
    | inside u rest h => exact .inside (t ++ u) rest h
    | later u a h => exact .later (t ++ u) a h
  | next t a rest => .later t a (h.append_left rest)

/-- **Inlining one call after the other** ends in the template without calls. -/
theorem inlines_flat : ∀ p : Template, ReflTransGen Inlines p p.flat
  | last t => .refl
  | next t (.leaf v) rest => by
    have hflat : (next t (.leaf v) rest).flat = next t (.leaf v) rest.flat := by
      simp [flat, CodeTree.flat, append]
    rw [hflat]
    exact (inlines_flat rest).lift (next t (.leaf v)) fun _ _ h => .later t _ h
  | next t (.code p) rest => by
    have hinside : ReflTransGen Inlines (next t (.code p) rest) (next t (.code p.flat) rest) :=
      (inlines_flat p).lift (fun p => next t (.code p) rest) fun _ _ h => .inside t rest h
    have hbehind := (inlines_flat rest).lift (((last t).append p.flat).append ·)
      fun _ _ h => h.append_left _
    have hflat : (next t (.code p) rest).flat = ((last t).append p.flat).append rest.flat := by
      simp [flat, CodeTree.flat]
    rw [hflat]
    exact (hinside.tail (.here t p.flat rest)).trans hbehind

end Template

end Splice
