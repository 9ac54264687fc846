import Splice.Proofs.Usage
import Mathlib.Algebra.BigOperators.Group.List.Basic
import Mathlib.Data.List.Nodup
import Mathlib.Data.List.Perm.Basic
import Mathlib.Tactic.Ring
/-!
# Usage — updates of a map add up

An update adds the uses of a source, times a factor, to a map. It changes
nothing but the map, and in the map nothing but the counts of what the
source uses (`Usage.Adds`). Two updates in a row add the sum of what they
add (`Usage.Adds.trans`), so a row of updates adds the sum over the row
(`Build.countAll_adds`), in whatever order they are made
(`Usage.Adds.perm`). A source whose own map is the one that is updated
uses at each entry what the map counts there, and so multiplies it
(`Build.countUses_own`).
-/

namespace Splice

/-- The whole number that a value is, if it is one. Truth values are one
and zero. -/
def Item.whole? {ρ : Type} : Item ρ → Option Int
  | .scalar (.int n) => some n
  | .scalar (.bool b) => some (Scalar.ofBool b)
  | _ => none

/-- How many uses a value counts, if it is a count: a whole number, or
nothing for none. -/
def Item.uses? {ρ : Type} : Item ρ → Option Int
  | .scalar .null => some 0
  | x => x.whole?

/-- The map that an object carries as its usage, if it carries one. -/
def Object.usage? : Object → Option Value
  | .fragment _ used _ => some used
  | .tracked used _ => some used
  | _ => none

theorem Item.uses?_of_whole? {x : Value} {n : Int} (h : x.whole? = some n) :
    x.uses? = some n := by
  unfold Item.uses?
  split
  · cases h
  · exact h

namespace Usage

/-! ## Counts by text -/

/-- How often a map counts a text: not at all if the text is missing, or
has nothing for a count. -/
def uses (m : Usage) (t : Text) : Int := ((m.lookup (.text t)).bind Item.uses?).getD 0

/-- A map with at most one entry for each text and none for anything else,
in which each count is one that can be read. -/
structure CountsBy (read : Value → Option Int) (m : Usage) : Prop where
  /-- The keys are texts. -/
  texts : ∀ e ∈ m, ∃ t, e.1 = .text t
  /-- No key is there twice. -/
  nodup : (m.map Prod.fst).Nodup
  /-- The counts are numbers. -/
  counts : ∀ e ∈ m, ∃ n, read e.2 = some n

variable {s : Store} {m m' m'' : Usage} {t : Text} {v : Value} {n : Int}
  {read : Value → Option Int}

theorem countsBy_nil : CountsBy read [] := ⟨nofun, List.nodup_nil, nofun⟩

theorem countsBy_cons {e : Value × Value} : CountsBy read (e :: m) ↔
    (∃ t, e.1 = .text t) ∧ e.1 ∉ m.map Prod.fst ∧ (∃ n, read e.2 = some n) ∧ m.CountsBy read := by
  constructor
  · rintro ⟨htexts, hnodup, hcounts⟩
    rw [List.forall_mem_cons] at htexts hcounts
    rw [List.map_cons, List.nodup_cons] at hnodup
    exact ⟨htexts.1, hnodup.1, hcounts.1, htexts.2, hnodup.2, hcounts.2⟩
  · rintro ⟨htext, hkey, hcount, h⟩
    exact ⟨List.forall_mem_cons.2 ⟨htext, h.texts⟩, List.nodup_cons.2 ⟨hkey, h.nodup⟩,
      List.forall_mem_cons.2 ⟨hcount, h.counts⟩⟩

theorem lookup_cons (key v : Value) (m : Usage) (t : Text) :
    List.lookup (.text t) ((key, v) :: m) =
      if key = .text t then some v else m.lookup (.text t) := by
  by_cases h : key = .text t
  · rw [List.lookup_cons, if_pos h, h, beq_self_eq_true]
  · rw [List.lookup_cons, if_neg h, beq_false_of_ne (Ne.symm h)]

theorem uses_cons (h : v.uses? = some n) (m : Usage) (t u : Text) :
    uses ((.text t, v) :: m) u = if t = u then n else m.uses u := by
  rw [uses, lookup_cons]
  by_cases htu : t = u
  · rw [if_pos (congrArg _ htu), if_pos htu, Option.bind_some, h, Option.getD_some]
  · rw [if_neg fun heq => htu (Item.text.inj heq), if_neg htu, uses]

theorem lookup_eq_none (h : .text t ∉ m.map Prod.fst) : m.lookup (.text t) = none := by
  refine List.lookup_eq_none_iff.2 fun e he => ?_
  have hne : e.1 ≠ .text t := fun heq => h (heq ▸ List.mem_map_of_mem he)
  simpa [beq_eq_false_iff_ne] using Ne.symm hne

theorem uses_of_not_mem (h : .text t ∉ m.map Prod.fst) : m.uses t = 0 := by
  rw [uses, lookup_eq_none h, Option.bind_none, Option.getD_none]

/-- In a map without duplicates the value found under a key is that of its entry. -/
theorem mem_iff_lookup (h : (m.map Prod.fst).Nodup) :
    (.text t, v) ∈ m ↔ m.lookup (.text t) = some v := by
  induction m with
  | nil => simp
  | cons e m ih =>
    obtain ⟨key, w⟩ := e
    rw [List.map_cons, List.nodup_cons] at h
    rw [lookup_cons, List.mem_cons]
    by_cases hkey : key = .text t
    · subst hkey
      have hmem : (.text t, v) ∉ m := fun hm => h.1 (List.mem_map.2 ⟨_, hm, rfl⟩)
      simp [hmem, eq_comm]
    · simp [hkey, ih h.2, Ne.symm hkey]

/-- Maps in which the same is found are the same but for the order of their entries. -/
theorem CountsBy.perm (h : m.CountsBy read) (h' : m'.CountsBy read)
    (hlookup : ∀ t, m.lookup (.text t) = m'.lookup (.text t)) : m.Perm m' := by
  refine (List.perm_ext_iff_of_nodup (.of_map _ h.nodup) (.of_map _ h'.nodup)).2 fun e => ?_
  have hmem (t : Text) (v : Value) : (.text t, v) ∈ m ↔ (.text t, v) ∈ m' := by
    rw [mem_iff_lookup h.nodup, mem_iff_lookup h'.nodup, hlookup]
  obtain ⟨key, v⟩ := e
  constructor
  · intro he
    obtain ⟨t, rfl⟩ : ∃ t, key = .text t := h.texts _ he
    exact (hmem t v).1 he
  · intro he
    obtain ⟨t, rfl⟩ : ∃ t, key = .text t := h'.texts _ he
    exact (hmem t v).2 he

/-! ## A count put under a text -/

theorem put_cons_text (t u : Text) (v w : Value) (m : Usage) :
    put s (.text t) v ((.text u, w) :: m) =
      if u = t then (.text u, v) :: m else (.text u, w) :: put s (.text t) v m := by
  rw [put, Store.sameKey_text]
  by_cases h : u = t
  · rw [if_pos h, if_pos (by simpa using h)]
  · rw [if_neg h, if_neg (by simpa using h)]

theorem lookup_put (h : m.CountsBy read) (t u : Text) (v : Value) :
    (m.put s (.text t) v).lookup (.text u) = if t = u then some v else m.lookup (.text u) := by
  induction m with
  | nil =>
    rw [put, lookup_cons]
    simp
  | cons e m ih =>
    obtain ⟨key, w⟩ := e
    obtain ⟨⟨k, rfl : key = .text k⟩, -, -, hm⟩ := countsBy_cons.1 h
    rw [put_cons_text]
    by_cases hkt : k = t
    · subst hkt
      rw [if_pos rfl, lookup_cons, lookup_cons]
      simp only [Item.text.injEq]
      split <;> rfl
    · rw [if_neg hkt, lookup_cons, lookup_cons, ih hm]
      by_cases hku : k = u
      · subst hku
        rw [if_pos rfl, if_pos rfl, if_neg (Ne.symm hkt)]
      · simp only [Item.text.injEq, if_neg hku]

/-- The keys afterwards are those before and the one that is put. -/
theorem mem_keys_put (h : m.CountsBy read) {key : Value} :
    key ∈ (m.put s (.text t) v).map Prod.fst ↔ key = .text t ∨ key ∈ m.map Prod.fst := by
  induction m with
  | nil => simp [put]
  | cons e m ih =>
    obtain ⟨k, w⟩ := e
    obtain ⟨⟨u, rfl : k = .text u⟩, -, -, hm⟩ := countsBy_cons.1 h
    rw [put_cons_text]
    split
    · subst u
      simp
    · rw [List.map_cons, List.mem_cons, ih hm, List.map_cons, List.mem_cons, or_left_comm]

theorem CountsBy.put (h : m.CountsBy read) (t : Text) (hv : read v = some n) :
    (m.put s (.text t) v).CountsBy read := by
  induction m with
  | nil => exact countsBy_cons.2 ⟨⟨t, rfl⟩, by simp, ⟨n, hv⟩, countsBy_nil⟩
  | cons e m ih =>
    obtain ⟨k, w⟩ := e
    obtain ⟨⟨u, rfl : k = .text u⟩, hkey, hcount, hm⟩ := countsBy_cons.1 h
    rw [put_cons_text]
    split
    · exact countsBy_cons.2 ⟨⟨u, rfl⟩, hkey, ⟨n, hv⟩, hm⟩
    · refine countsBy_cons.2 ⟨⟨u, rfl⟩, ?_, hcount, ih hm⟩
      rw [mem_keys_put hm]
      rintro (heq | hmem)
      · exact ‹¬u = t› (Item.text.inj heq)
      · exact hkey hmem

/-- A key that is there keeps its place. -/
theorem put_append (done rest : Usage) (hdone : ∀ e ∈ done, ∃ u, e.1 = .text u ∧ u ≠ t)
    (w : Value) :
    put s (.text t) v (done ++ (.text t, w) :: rest) = done ++ (.text t, v) :: rest := by
  induction done with
  | nil => rw [List.nil_append, put_cons_text, if_pos rfl, List.nil_append]
  | cons e done ih =>
    obtain ⟨key, w'⟩ := e
    obtain ⟨⟨u, rfl : key = .text u, hne⟩, hrest⟩ := List.forall_mem_cons.1 hdone
    rw [List.cons_append, put_cons_text, if_neg hne, ih hrest, List.cons_append]

/-- What the program reads under a text. -/
theorem count_eq (h : m.CountsBy read) (t : Text) :
    m.count s (.text t) = (m.lookup (.text t)).getD (.scalar (.int 0)) := by
  induction m with
  | nil => rfl
  | cons e m ih =>
    obtain ⟨k, w⟩ := e
    obtain ⟨⟨u, rfl : k = .text u⟩, -, -, hm⟩ := countsBy_cons.1 h
    rw [lookup_cons, count, Store.valueAt, List.find?_cons, Store.sameKey_text]
    by_cases hut : u = t
    · simp [hut]
    · rw [beq_false_of_ne hut, if_neg fun heq => hut (Item.text.inj heq), ← ih hm]
      rfl

/-- So it reads a whole number where the map has one, and zero elsewhere. -/
theorem whole?_count (h : m.CountsBy Item.whole?) (t : Text) :
    (m.count s (.text t)).whole? = some (m.uses t) := by
  rw [count_eq h, uses]
  cases hlookup : m.lookup (.text t) with
  | none => rfl
  | some v =>
    obtain ⟨n, hn⟩ := h.counts _ ((mem_iff_lookup h.nodup).2 hlookup)
    rw [Option.getD_some, Option.bind_some, Item.uses?_of_whole? hn, hn, Option.getD_some]

/-! ## What updates add -/

/-- One map is another with `d t` added to the count of each text `t` that
is touched, and nothing else changed. -/
structure Adds (touched : Text → Prop) (d : Text → Int) (m m' : Usage) : Prop where
  /-- The map counts in whole numbers. -/
  counts : m'.CountsBy Item.whole?
  /-- A touched text has an entry afterwards, with the sum. -/
  lookup_of : ∀ t, touched t → m'.lookup (.text t) = some (.scalar (.int (m.uses t + d t)))
  /-- Any other text has the entry that it had. -/
  lookup_of_not : ∀ t, ¬touched t → m'.lookup (.text t) = m.lookup (.text t)
  /-- Nothing is added where nothing is touched. -/
  eq_zero : ∀ t, ¬touched t → d t = 0

variable {T T' : Text → Prop} {d d' : Text → Int}

theorem Adds.refl (h : m.CountsBy Item.whole?) : Adds (fun _ => False) (fun _ => 0) m m :=
  ⟨h, nofun, fun _ _ => rfl, fun _ _ => rfl⟩

/-- **The counts afterwards** are the sums. -/
theorem Adds.uses_eq (h : Adds T d m m') (t : Text) : m'.uses t = m.uses t + d t := by
  by_cases ht : T t
  · rw [uses, h.lookup_of t ht]
    rfl
  · rw [uses, h.lookup_of_not t ht, h.eq_zero t ht, Int.add_zero, uses]

/-- **Of two additions in a row** the sums are added. -/
theorem Adds.trans (h : Adds T d m m') (h' : Adds T' d' m' m'') :
    Adds (fun t => T t ∨ T' t) (fun t => d t + d' t) m m'' := by
  refine ⟨h'.counts, fun t ht => ?_, fun t ht => ?_, fun t ht => ?_⟩
  · by_cases ht' : T' t
    · rw [h'.lookup_of t ht', h.uses_eq t, Int.add_assoc]
    · rw [h'.lookup_of_not t ht', h.lookup_of t (ht.resolve_right ht'), h'.eq_zero t ht',
        Int.add_zero]
  · rw [h'.lookup_of_not t fun hT' => ht (.inr hT'), h.lookup_of_not t fun hT => ht (.inl hT)]
  · rw [h'.eq_zero t fun hT' => ht (.inr hT'), h.eq_zero t fun hT => ht (.inl hT)]
    rfl

theorem Adds.congr (h : Adds T d m m') (hT : ∀ t, T t ↔ T' t) (hd : ∀ t, d t = d' t) :
    Adds T' d' m m' := by
  obtain rfl : T = T' := funext fun t => propext (hT t)
  obtain rfl : d = d' := funext hd
  exact h

/-- **The same additions give the same map**, but for the order of its entries. -/
theorem Adds.perm (h : Adds T d m m') (h' : Adds T d m m'') : m'.Perm m'' := by
  refine h.counts.perm h'.counts fun t => ?_
  by_cases ht : T t
  · rw [h.lookup_of t ht, h'.lookup_of t ht]
  · rw [h.lookup_of_not t ht, h'.lookup_of_not t ht]

/-- A count put under a text adds to that text only. -/
theorem adds_put (h : m.CountsBy Item.whole?) (t : Text) (k : Int) :
    Adds (fun u => u = t) (fun u => if t = u then k else 0) m
      (m.put s (.text t) (.scalar (.int (m.uses t + k)))) := by
  refine ⟨h.put t rfl, ?_, fun u hu => ?_, fun u hu => if_neg (Ne.symm hu)⟩
  · rintro u rfl
    rw [lookup_put h, if_pos rfl, if_pos rfl]
  · rw [lookup_put h, if_neg (Ne.symm hu)]

/-- A map with each count times a number. -/
def scaled (c : Int) (m : Usage) : Usage :=
  m.map fun e => (e.1, .scalar (.int (c * (e.2.uses?).getD 0)))

end Usage

namespace Store

variable {s : Store} {v : Value} {u : Ref} {m m' : Usage}

/-- What a value uses, which is nothing if its uses cannot be read. -/
def usage (s : Store) (v : Value) : Usage := (s.usesOf v).toOption.getD []

/-- A value whose uses can be added to the map at `u`: a name, or an object
that carries no map, or another map than that one. -/
inductive IsSource (s : Store) (u : Ref) : Value → Prop
  /-- A name. -/
  | name (n : Name) : IsSource s u (.name n)
  /-- An object that uses nothing. -/
  | idle {r : Ref} : (s.get r).usage? = some (.scalar .null) → IsSource s u (.object r)
  /-- An object with a map of its own. -/
  | counting {r q : Ref} {m : Usage} : (s.get r).usage? = some (.object q) → q ≠ u →
      s.get q = .dict m → m.CountsBy Item.uses? → IsSource s u (.object r)

theorem usesOf_of_usage? {r : Ref} {used : Value} (h : (s.get r).usage? = some used) :
    s.usesOf (.object r) = s.countsIn used := by
  rw [usesOf]
  cases hget : s.get r with
  | fragment items used' e =>
    rw [hget] at h
    rw [Option.some.inj h]
  | tracked used' t =>
    rw [hget] at h
    rw [Option.some.inj h]
  | _ =>
    rw [hget] at h
    cases h

/-- Uses that are counts. -/
theorem IsSource.usesOf (h : s.IsSource u v) :
    s.usesOf v = .ok (s.usage v) ∧ (s.usage v).CountsBy Item.uses? := by
  have key : ∃ uses : Usage, s.usesOf v = .ok uses ∧ uses.CountsBy Item.uses? := by
    cases h with
    | name n =>
      exact ⟨_, rfl, Usage.countsBy_cons.2 ⟨⟨_, rfl⟩, by simp, ⟨1, rfl⟩, Usage.countsBy_nil⟩⟩
    | idle hused => exact ⟨[], usesOf_of_usage? hused, Usage.countsBy_nil⟩
    | counting hused _ hq hcounts =>
      exact ⟨_, (usesOf_of_usage? hused).trans (Build.countsIn_of_get hq), hcounts⟩
  obtain ⟨uses, huses, hcounts⟩ := key
  rw [Store.usage, huses]
  exact ⟨rfl, hcounts⟩

/-- **A source is the same** whatever becomes of the map. -/
theorem IsSource.set (h : s.IsSource u v) (hu : s.get u = .dict m) (o : Object) :
    (s.set u o).IsSource u v ∧ (s.set u o).usesOf v = s.usesOf v := by
  have hcarrier {r : Ref} {used : Value} (hr : (s.get r).usage? = some used) :
      (s.set u o).get r = s.get r := by
    refine get_set_ne ?_
    rintro rfl
    rw [hu] at hr
    cases hr
  cases h with
  | name n => exact ⟨.name n, rfl⟩
  | @idle r hused =>
    have hused' : ((s.set u o).get r).usage? = some (.scalar .null) := by rw [hcarrier hused, hused]
    exact ⟨.idle hused', (usesOf_of_usage? hused').trans (usesOf_of_usage? hused).symm⟩
  | @counting r q m hused hne hq hcounts =>
    have hused' : ((s.set u o).get r).usage? = some (.object q) := by rw [hcarrier hused, hused]
    have hq' : (s.set u o).get q = .dict m := by rw [get_set_ne (Ne.symm hne), hq]
    refine ⟨.counting hused' hne hq' hcounts, ?_⟩
    rw [usesOf_of_usage? hused', usesOf_of_usage? hused, Build.countsIn_of_get hq',
      Build.countsIn_of_get hq]

theorem IsSource.usage_set (h : s.IsSource u v) (hu : s.get u = .dict m) (o : Object) :
    (s.set u o).usage v = s.usage v := by
  rw [usage, usage, (h.set hu o).2]

end Store

namespace Build

variable {σ : Session} {u : Ref} {m : Usage}

/-- What a count comes to, times a factor, is added to what is there. -/
theorem total_of_uses {s : Store} (hm : m.CountsBy Item.whole?) (factor : Int) (t : Text)
    {c : Value} {n : Int} (hc : c.uses? = some n) :
    m.total s factor (.text t) c = .ok (.whole (m.uses t + factor * n)) := by
  have hcount : s.countedAmount c = .ok (.whole n) := by
    unfold Item.uses? at hc
    split at hc
    · cases hc
      rfl
    · unfold Item.whole? at hc
      split at hc
      · cases hc
        exact Usage.countedAmount_int _
      · rename_i b _
        cases hc
        cases b <;> rfl
      · cases hc
  have hamount : s.amount (m.count s (.text t)) = .ok (.whole (m.uses t)) := by
    have hwhole := Usage.whole?_count (s := s) hm t
    unfold Item.whole? at hwhole
    split at hwhole
    · rename_i heq
      rw [heq, ← Option.some.inj hwhole]
      rfl
    · rename_i heq
      rw [heq, ← Option.some.inj hwhole]
      rfl
    · cases hwhole
  rw [Usage.total, hcount, hamount]
  rfl

/-- **One count** is added to the map. -/
theorem addCountTo_of_uses (hu : σ.store.get u = .dict m) (hm : m.CountsBy Item.whole?)
    (factor : Int) (t : Text) {c : Value} {n : Int} (hc : c.uses? = some n) :
    addCountTo (.object u) factor (.text t, c) σ =
      .ok () ⟨σ.store.set u
        (.dict (m.put σ.store (.text t) (.scalar (.int (m.uses t + factor * n))))), σ.log⟩ := by
  have hcount : addCount factor m (.text t, c) σ =
      .ok (m.put σ.store (.text t) (.scalar (.int (m.uses t + factor * n)))) σ := by
    rw [addCount, bind_of_ok (read_of_ok (total_of_uses hm factor t hc))]
    rfl
  simp only [addCountTo]
  rw [bind_of_ok (load_apply u), hu]
  simp only []
  rw [bind_of_ok hcount, write_apply]

/-- So **the counts of a map**, one after the other, are. -/
theorem forM_addCountTo {uses : Usage} (huses : uses.CountsBy Item.uses?)
    (hu : σ.store.get u = .dict m) (hm : m.CountsBy Item.whole?) (factor : Int) :
    ∃ m', uses.forM (addCountTo (.object u) factor) σ = .ok () ⟨σ.store.set u (.dict m'), σ.log⟩ ∧
      Usage.Adds (fun t => .text t ∈ uses.map Prod.fst) (fun t => factor * uses.uses t) m m' := by
  induction uses generalizing σ m with
  | nil =>
    refine ⟨m, ?_, (Usage.Adds.refl hm).congr (by simp) (by simp [Usage.uses])⟩
    rw [Store.set_get hu]
    rfl
  | cons e uses ih =>
    obtain ⟨key, c⟩ := e
    obtain ⟨⟨t, rfl : key = .text t⟩, hkey, ⟨n, hc⟩, hrest⟩ := Usage.countsBy_cons.1 huses
    let m₁ : Usage := m.put σ.store (.text t) (.scalar (.int (m.uses t + factor * n)))
    let τ : Session := ⟨σ.store.set u (.dict m₁), σ.log⟩
    have hadds : Usage.Adds _ _ m m₁ := Usage.adds_put (s := σ.store) hm t (factor * n)
    have hτ : τ.store.get u = .dict m₁ := Store.get_set_self (Store.live_of_dict hu)
    obtain ⟨m₂, hrun, hadds₂⟩ := ih hrest hτ hadds.counts
    refine ⟨m₂, ?_, (hadds.trans hadds₂).congr (fun w => ?_) fun w => ?_⟩
    · rw [List.forM, bind_of_ok (addCountTo_of_uses hu hm factor t hc), hrun, Store.set_set]
    · rw [List.map_cons, List.mem_cons, Item.text.injEq]
    · rw [Usage.uses_cons hc]
      by_cases hw : t = w
      · subst hw
        simp [Usage.uses_of_not_mem hkey]
      · simp [hw]

/-- A row of updates of one map, each with its source and its factor. -/
def countAll (updates : List (Value × Int)) (into : Value) : Build Unit :=
  updates.forM fun p => countUses p.1 into p.2

/-- How much a row of updates adds to the count of a text. -/
def added (s : Store) (updates : List (Value × Int)) (t : Text) : Int :=
  (updates.map fun p => p.2 * (s.usage p.1).uses t).sum

/-- **A row of updates** succeeds, changes no object but the map, and adds
to it the sum over the row. -/
theorem countAll_adds {updates : List (Value × Int)} (hu : σ.store.get u = .dict m)
    (hm : m.CountsBy Item.whole?) (hsources : ∀ p ∈ updates, σ.store.IsSource u p.1) :
    ∃ m', countAll updates (.object u) σ = .ok () ⟨σ.store.set u (.dict m'), σ.log⟩ ∧
      Usage.Adds (fun t => ∃ p ∈ updates, .text t ∈ (σ.store.usage p.1).map Prod.fst)
        (added σ.store updates) m m' := by
  induction updates generalizing σ m with
  | nil =>
    refine ⟨m, ?_, (Usage.Adds.refl hm).congr (by simp) (by simp [added])⟩
    rw [Store.set_get hu]
    rfl
  | cons p updates ih =>
    obtain ⟨v, k⟩ := p
    obtain ⟨hv, hrest⟩ := List.forall_mem_cons.1 hsources
    obtain ⟨huses, hcounts⟩ := hv.usesOf
    obtain ⟨m₁, hrun₁, hadds₁⟩ := forM_addCountTo hcounts hu hm k
    let τ : Session := ⟨σ.store.set u (.dict m₁), σ.log⟩
    have hτ : τ.store.get u = .dict m₁ := Store.get_set_self (Store.live_of_dict hu)
    have husage (p : Value × Int) (hp : p ∈ updates) : τ.store.usage p.1 = σ.store.usage p.1 :=
      (hrest p hp).usage_set hu _
    obtain ⟨m₂, hrun₂, hadds₂⟩ := ih hτ hadds₁.counts fun p hp => ((hrest p hp).set hu _).1
    refine ⟨m₂, ?_, (hadds₁.trans hadds₂).congr (fun t => ?_) fun t => ?_⟩
    · have hfirst : countUses v (.object u) k σ = .ok () τ := by
        rw [countUses, bind_of_ok (read_of_ok huses), hrun₁]
      rw [countAll] at hrun₂ ⊢
      rw [List.forM, bind_of_ok hfirst, hrun₂, Store.set_set]
    · rw [List.exists_mem_cons_iff]
      refine or_congr Iff.rfl (exists_congr fun p => and_congr_right fun hp => ?_)
      rw [husage p hp]
    · simp only [added, List.map_cons, List.sum_cons]
      rw [List.map_congr_left fun p hp => by rw [husage p hp]]

/-- The counts of a map added to it: those that are done are multiplied,
the others as they were. -/
theorem forM_addCountTo_own {done rest : Usage} {factor : Int}
    (hu : σ.store.get u = .dict (done.scaled (1 + factor) ++ rest))
    (hm : (Usage.scaled (1 + factor) done ++ rest).CountsBy Item.whole?) :
    rest.forM (addCountTo (.object u) factor) σ =
      .ok () ⟨σ.store.set u (.dict (Usage.scaled (1 + factor) (done ++ rest))), σ.log⟩ := by
  induction rest generalizing σ done with
  | nil =>
    rw [List.append_nil] at hu ⊢
    rw [Store.set_get hu]
    rfl
  | cons e rest ih =>
    obtain ⟨key, c⟩ := e
    have hmem : (key, c) ∈ Usage.scaled (1 + factor) done ++ (key, c) :: rest := by simp
    obtain ⟨t, rfl : key = .text t⟩ := hm.texts _ hmem
    obtain ⟨n, hn : c.whole? = some n⟩ := hm.counts _ hmem
    have huses : c.uses? = some n := Item.uses?_of_whole? hn
    -- The keys that are done are others, so the count that is read is the one that is added.
    have hread : (Usage.scaled (1 + factor) done ++ (.text t, c) :: rest).uses t = n := by
      rw [Usage.uses, (Usage.mem_iff_lookup hm.nodup).1 hmem, Option.bind_some, huses,
        Option.getD_some]
    have hdone : ∀ e ∈ Usage.scaled (1 + factor) done, ∃ w, e.1 = .text w ∧ w ≠ t := by
      intro e he
      obtain ⟨w, hw⟩ := hm.texts e (List.mem_append_left _ he)
      refine ⟨w, hw, ?_⟩
      rintro rfl
      have hnodup := hm.nodup
      rw [List.map_append, List.nodup_append] at hnodup
      exact hnodup.2.2 _ (List.mem_map_of_mem he) _ (by simp) hw
    have hput : Usage.put σ.store (.text t) (.scalar (.int (n + factor * n)))
          (Usage.scaled (1 + factor) done ++ (.text t, c) :: rest) =
        Usage.scaled (1 + factor) (done ++ [(.text t, c)]) ++ rest := by
      have hproduct : (1 + factor) * n = n + factor * n := by ring
      rw [Usage.put_append _ _ hdone]
      simp [Usage.scaled, huses, hproduct]
    have hfirst := addCountTo_of_uses hu hm factor t huses
    have hm' := hm.put (s := σ.store) t (v := .scalar (.int (n + factor * n))) rfl
    rw [hread, hput] at hfirst
    rw [hput] at hm'
    have hrest := ih (σ := ⟨σ.store.set u _, σ.log⟩)
      (Store.get_set_self (Store.live_of_dict hu)) hm'
    rw [List.forM, bind_of_ok hfirst, hrest, Store.set_set, List.append_assoc,
      List.singleton_append]

/-- **A source whose own map is updated** multiplies each of its counts,
and leaves the entries where they are. -/
theorem countUses_own {r : Ref} (hu : σ.store.get u = .dict m) (hm : m.CountsBy Item.whole?)
    (hr : (σ.store.get r).usage? = some (.object u)) (factor : Int) :
    countUses (.object r) (.object u) factor σ =
      .ok () ⟨σ.store.set u (.dict (m.scaled (1 + factor))), σ.log⟩ := by
  have huses : σ.store.usesOf (.object r) = .ok m := by
    rw [Store.usesOf_of_usage? hr, countsIn_of_get hu]
  rw [countUses, bind_of_ok (read_of_ok huses)]
  have hnone : σ.store.get u = .dict (Usage.scaled (1 + factor) [] ++ m) := hu
  exact forM_addCountTo_own hnone hm

/-! ## The laws of updating -/

/-- How much is added does not depend on the order of the updates. -/
theorem added_perm {s : Store} {updates updates' : List (Value × Int)}
    (h : updates'.Perm updates) (t : Text) : added s updates' t = added s updates t :=
  (h.map _).sum_eq

/-- An update and its opposite add nothing together. -/
theorem added_cancel (s : Store) (before between after : List (Value × Int)) (v : Value) (k : Int)
    (t : Text) : added s (before ++ (v, k) :: between ++ (v, -k) :: after) t =
      added s (before ++ between ++ after) t := by
  simp only [added, List.map_append, List.map_cons, List.sum_append, List.sum_cons]
  ring

/-- **Updates act on maps of whole numbers as a commutative group.** Any
row of updates by sources with other maps succeeds, and adds to the count
of each text what the sources use it, each times its factor. No other
object changes, nor what the sources use, and any other order of the row
leaves the same entries. An update that is taken back later leaves no
trace in the counts. A source whose own map is updated multiplies it. -/
theorem countAll_acts (hu : σ.store.get u = .dict m) (hm : m.CountsBy Item.whole?) :
    (∀ updates : List (Value × Int), (∀ p ∈ updates, σ.store.IsSource u p.1) →
      ∃ (m' : Usage) (τ : Session), countAll updates (.object u) σ = .ok () τ ∧
        τ.store.get u = .dict m' ∧ m'.CountsBy Item.whole? ∧
        (∀ t, m'.uses t = m.uses t + added σ.store updates t) ∧
        (∀ q, q ≠ u → τ.store.get q = σ.store.get q) ∧
        (∀ p ∈ updates, τ.store.usesOf p.1 = σ.store.usesOf p.1) ∧
        ∀ updates', updates'.Perm updates → ∃ (m'' : Usage) (τ' : Session),
          countAll updates' (.object u) σ = .ok () τ' ∧ τ'.store.get u = .dict m'' ∧ m''.Perm m') ∧
    (∀ (before between after : List (Value × Int)) (v : Value) (k : Int),
      (∀ p ∈ before ++ (v, k) :: between ++ (v, -k) :: after, σ.store.IsSource u p.1) →
      ∃ (m' : Usage) (τ : Session) (m'' : Usage) (τ' : Session),
        countAll (before ++ (v, k) :: between ++ (v, -k) :: after) (.object u) σ = .ok () τ ∧
          τ.store.get u = .dict m' ∧
        countAll (before ++ between ++ after) (.object u) σ = .ok () τ' ∧
          τ'.store.get u = .dict m'' ∧ ∀ t, m'.uses t = m''.uses t) ∧
    ∀ (r : Ref) (k : Int), (σ.store.get r).usage? = some (.object u) →
      countUses (.object r) (.object u) k σ =
        .ok () ⟨σ.store.set u (.dict (m.scaled (1 + k))), σ.log⟩ := by
  have hafter (m' : Usage) : (σ.store.set u (.dict m')).get u = .dict m' :=
    Store.get_set_self (Store.live_of_dict hu)
  refine ⟨fun updates hsources => ?_, fun before between after v k hsources => ?_,
    fun r k hr => countUses_own hu hm hr k⟩
  · obtain ⟨m', hrun, hadds⟩ := countAll_adds hu hm hsources
    refine ⟨m', _, hrun, hafter m', hadds.counts, hadds.uses_eq,
      fun q hq => Store.get_set_ne (Ne.symm hq), fun p hp => ((hsources p hp).set hu _).2,
      fun updates' hperm => ?_⟩
    obtain ⟨m'', hrun', hadds'⟩ :=
      countAll_adds hu hm fun p hp => hsources p (hperm.mem_iff.1 hp)
    refine ⟨m'', _, hrun', hafter m'', Usage.Adds.perm ?_ hadds⟩
    exact hadds'.congr (fun t => exists_congr fun p => and_congr_left fun _ => hperm.mem_iff)
      (added_perm hperm)
  · obtain ⟨m', hrun, hadds⟩ := countAll_adds hu hm hsources
    have hothers : ∀ p ∈ before ++ between ++ after, σ.store.IsSource u p.1 := by
      intro p hp
      refine hsources p ?_
      simp only [List.mem_append, List.mem_cons] at hp ⊢
      tauto
    obtain ⟨m'', hrun', hadds'⟩ := countAll_adds hu hm hothers
    refine ⟨m', _, m'', _, hrun, hafter m', hrun', hafter m'', fun t => ?_⟩
    rw [hadds.uses_eq, hadds'.uses_eq, added_cancel]

/-- A name counted three times and an object with two uses of it and one
entry without a count taken away once, and a map that is added to itself. -/
theorem countAll_acts_name :
    let x : Name := ⟨Text.ofString "x", by decide⟩
    let m : Usage := [(.text "x", .scalar (.int 1))]
    let other : Usage := [(.text "x", .scalar (.int 2)), (.text "y", .scalar .null)]
    let s : Store := ⟨#[.dict m, .dict other, .tracked (.object ⟨1⟩) none,
      .tracked (.object ⟨0⟩) none]⟩
    let updates : List (Value × Int) := [(.name x, 3), (.object ⟨2⟩, -1)]
    (s.get ⟨0⟩ = .dict m ∧ m.CountsBy Item.whole? ∧ (∀ p ∈ updates, s.IsSource ⟨0⟩ p.1) ∧
        (s.get ⟨3⟩).usage? = some (.object ⟨0⟩)) ∧
      (∃ (m' : Usage) (τ : Session), countAll updates (.object ⟨0⟩) ⟨s, []⟩ = .ok () τ ∧
        τ.store.get ⟨0⟩ = .dict m' ∧ m'.uses "x" = 2 ∧ m'.uses "y" = 0) ∧
      countUses (.object ⟨3⟩) (.object ⟨0⟩) 1 ⟨s, []⟩ =
        .ok () ⟨s.set ⟨0⟩ (.dict [(.text "x", .scalar (.int 2))]), []⟩ := by
  intro x m other s updates
  have hm : m.CountsBy Item.whole? :=
    Usage.countsBy_cons.2 ⟨⟨_, rfl⟩, by simp, ⟨1, rfl⟩, Usage.countsBy_nil⟩
  have hother : other.CountsBy Item.uses? :=
    Usage.countsBy_cons.2 ⟨⟨_, rfl⟩, by decide, ⟨2, rfl⟩,
      Usage.countsBy_cons.2 ⟨⟨_, rfl⟩, by simp, ⟨0, rfl⟩, Usage.countsBy_nil⟩⟩
  have hsources : ∀ p ∈ updates, s.IsSource ⟨0⟩ p.1 := by
    simp only [updates, List.forall_mem_cons]
    exact ⟨.name x, .counting rfl (by decide) rfl hother, by simp⟩
  obtain ⟨hadd, -, hown⟩ := countAll_acts (σ := ⟨s, []⟩) (u := ⟨0⟩) rfl hm
  obtain ⟨m', τ, hrun, hget, -, huses, -⟩ := hadd updates hsources
  refine ⟨⟨rfl, hm, hsources, rfl⟩, ⟨m', τ, hrun, hget, ?_, ?_⟩, hown ⟨3⟩ 1 rfl⟩
  · rw [huses]
    rfl
  · rw [huses]
    rfl

end Build

end Splice
