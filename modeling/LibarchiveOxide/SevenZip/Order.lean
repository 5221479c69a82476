import LibarchiveOxide.SevenZip.Wiring
import Mathlib.Data.Fintype.Order

/-! # The decode order

Since no output is consumed twice, the depth-first search of a wired folder never comes to a coder
that is done: the order is the post-order of the tree under the coder it starts from
(`visitCoder_spec`). -/

namespace LibarchiveOxide.SevenZip.Order

open Core.Failure Lib.Result SevenZip.Wire SevenZip.Graph SevenZip.Wiring

variable {f : Folder}

/-! ### Trees -/

/-- The coders that a coder depends on and the coder itself, dependencies first, down to a depth. -/
def postOrder (f : Folder) : ℕ → ℕ → List ℕ
  | 0, _ => []
  | depth + 1, coder =>
    ((List.range (numInAt f coder)).flatMap fun slot =>
      match source f (f.inBase coder + slot) with
      | none => []
      | some producer => postOrder f depth producer) ++ [coder]

/-- The tree under a coder is not deeper than that. -/
def Grounded (f : Folder) : ℕ → ℕ → Prop
  | 0, _ => False
  | depth + 1, coder => ∀ slot < numInAt f coder, ∀ producer,
      source f (f.inBase coder + slot) = some producer → Grounded f depth producer

/-- The part of the tree under a coder that hangs at its first inputs. -/
def branches (f : Folder) (depth coder count : ℕ) : List ℕ :=
  (List.range count).flatMap fun slot =>
    match source f (f.inBase coder + slot) with
    | none => []
    | some producer => postOrder f depth producer

theorem branches_succ (depth coder count : ℕ) : branches f depth coder (count + 1) =
    branches f depth coder count ++
      match source f (f.inBase coder + count) with
      | none => []
      | some producer => postOrder f depth producer := by
  unfold branches
  rw [List.range_succ, List.flatMap_append, List.flatMap_singleton]

theorem postOrder_succ (depth coder : ℕ) :
    postOrder f (depth + 1) coder = branches f depth coder (numInAt f coder) ++ [coder] := rfl

/-! ### The search -/

variable {coder : ℕ} {inputs : Set ℕ} {marks : List DfsMark} {order : List ℕ}

/-- The search has come to an order: the coders that are done are in it, once each, and all but
`except` were found through one of the `inputs`, whose coders have been visited. -/
structure Searched (f : Folder) (inputs : Set ℕ) (except : Option ℕ) (marks : List DfsMark)
    (order : List ℕ) : Prop where
  done : ∀ x : ℕ, marks[x]? = some .done ↔ x ∈ order
  nodup : order.Nodup
  found : ∀ x ∈ order, some x = except ∨ ∃ input ∈ inputs, source f input = some x
  visited : ∀ input ∈ inputs, ∃ index slot : ℕ, slot < numInAt f index ∧
    input = f.inBase index + slot ∧ marks[index]? ≠ some .unvisited
  size : marks.length = f.coders.length

/-- What a visit leaves: marks of visited coders stay, and the new inputs are those of coders that
were not visited. -/
structure Extends (f : Folder) (inputs inputs' : Set ℕ) (marks marks' : List DfsMark) : Prop where
  keeps : ∀ x : ℕ, marks[x]? ≠ some .unvisited → marks'[x]? = marks[x]?
  grows : inputs ⊆ inputs'
  fresh : ∀ input ∈ inputs', input ∈ inputs ∨ ∃ index slot : ℕ, slot < numInAt f index ∧
    input = f.inBase index + slot ∧ marks[index]? = some .unvisited

/-- What the visit of a coder finds. -/
def Visits (f : Folder) (depth coder : ℕ) (inputs : Set ℕ) (marks : List DfsMark) (order : List ℕ)
    (marks' : List DfsMark) (order' : List ℕ) : Prop :=
  order' = order ++ postOrder f depth coder ∧ Grounded f depth coder ∧
    ∃ inputs', Extends f inputs inputs' marks marks' ∧ Searched f inputs' (some coder) marks' order'

/-- One round of the loop over the inputs of a coder. -/
def visitInput (f : Folder) (fuel coder : ℕ) (st : List DfsMark × List ℕ) (slot : ℕ) :
    Except HeaderError (List DfsMark × List ℕ) :=
  match f.bindPairs.find? fun p => p.inIndex == f.inBase coder + slot with
  | none => .ok st
  | some pair =>
    match f.coderOfOut pair.outIndex with
    | none => .error (.malformed "7z: bind pair output has no coder")
    | some producer => visitCoder f fuel producer st

theorem visitInput_none {fuel slot : ℕ} {st : List DfsMark × List ℕ}
    (h : source f (f.inBase coder + slot) = none) : visitInput f fuel coder st slot = .ok st := by
  unfold visitInput
  rw [Option.map_eq_none_iff.mp h]

theorem visitInput_some (hw : Wired f) {fuel slot producer : ℕ} {st : List DfsMark × List ℕ}
    (h : source f (f.inBase coder + slot) = some producer) :
    visitInput f fuel coder st slot = visitCoder f fuel producer st := by
  unfold visitInput
  obtain ⟨pair, hpair, hout⟩ := Option.map_eq_some_iff.mp h
  rw [hpair]
  dsimp only
  rw [hout, coderOfOut_eq hw (source_lt hw h)]

/-- What the loop over the first inputs of a coder has done, from marks in which the coder is in
progress. -/
structure Looped (f : Folder) (depth coder count : ℕ) (inputs : Set ℕ) (marks : List DfsMark)
    (order : List ℕ) (marks' : List DfsMark) (order' : List ℕ) : Prop where
  order_eq : order' = order ++ branches f depth coder count
  grounded : ∀ slot < count, ∀ producer,
    source f (f.inBase coder + slot) = some producer → Grounded f depth producer
  searched : ∃ inputs', (∀ x : ℕ, marks[x]? ≠ some .unvisited → marks'[x]? = marks[x]?) ∧
    inputs ⊆ inputs' ∧
    (∀ input ∈ inputs', input ∈ inputs ∨ (∃ slot < count, input = f.inBase coder + slot) ∨
      ∃ index slot : ℕ, slot < numInAt f index ∧ input = f.inBase index + slot ∧
        marks[index]? = some .unvisited) ∧
    Searched f inputs' none marks' order'

/-- **The loop over the inputs of a coder**, given what a visit does. -/
theorem foldlM_looped (hw : Wired f) {depth : ℕ} (hprogress : marks[coder]? = some .inProgress)
    (hsearched : Searched f inputs none marks order)
    (hnew : ∀ slot < numInAt f coder, f.inBase coder + slot ∉ inputs)
    (ih : ∀ {producer : ℕ} {inputs : Set ℕ} {marks : List DfsMark} {order : List ℕ}
      {marks' : List DfsMark} {order' : List ℕ}, producer < f.coders.length →
      Searched f inputs none marks order → marks[producer]? ≠ some .done →
      visitCoder f depth producer (marks, order) = .ok (marks', order') →
      Visits f depth producer inputs marks order marks' order') :
    ∀ {count : ℕ} {marks' : List DfsMark} {order' : List ℕ}, count ≤ numInAt f coder →
      (List.range count).foldlM (visitInput f depth coder) (marks, order) = .ok (marks', order') →
      Looped f depth coder count inputs marks order marks' order' := by
  intro count
  induction count with
  | zero =>
    intro marks' order' _ h
    cases h
    exact ⟨(List.append_nil _).symm, fun _ hlt => absurd hlt (Nat.not_lt_zero _), inputs,
      fun _ _ => rfl, subset_rfl, fun _ hmem => .inl hmem, hsearched⟩
  | succ count ihc =>
    intro marks' order' hcount h
    rw [List.range_succ, List.foldlM_append] at h
    obtain ⟨⟨marks₁, order₁⟩, hfirst, h⟩ := bind_eq_ok.mp h
    obtain ⟨hord, hground, inputs₁, hkeeps, hgrows, hfresh, hsearched₁⟩ := ihc (by omega) hfirst
    have hstep : visitInput f depth coder (marks₁, order₁) count = .ok (marks', order') := by
      rw [List.foldlM_cons] at h
      obtain ⟨st, hst, h⟩ := bind_eq_ok.mp h
      cases h
      exact hst
    have hslot : count < numInAt f coder := hcount
    have hcoder₁ : marks₁[coder]? = some .inProgress := by
      rw [hkeeps coder (by rw [hprogress]; decide), hprogress]
    -- the input is new: the loop has only seen smaller slots, and inputs of other coders
    have hnew₁ : f.inBase coder + count ∉ inputs₁ := by
      intro hmem
      rcases hfresh _ hmem with hin | ⟨slot, hlt, heq⟩ | ⟨index, slot, hlt, heq, hun⟩
      · exact hnew count hslot hin
      · omega
      · obtain ⟨rfl, -⟩ := inBase_add_inj hslot hlt heq
        rw [hprogress] at hun
        cases hun
    cases hs : source f (f.inBase coder + count) with
    | none =>
      rw [visitInput_none hs] at hstep
      cases hstep
      refine ⟨?_, ?_, inputs₁, hkeeps, hgrows, fun input hmem => ?_, hsearched₁⟩
      · rw [branches_succ, hs, List.append_nil]
        exact hord
      · intro slot hlt producer hp
        rcases Nat.lt_succ_iff_lt_or_eq.mp hlt with hlt | rfl
        · exact hground slot hlt producer hp
        · rw [hs] at hp; cases hp
      · rcases hfresh _ hmem with hin | ⟨slot, hlt, heq⟩ | hun
        · exact .inl hin
        · exact .inr (.inl ⟨slot, by omega, heq⟩)
        · exact .inr (.inr hun)
    | some producer =>
      rw [visitInput_some hw hs] at hstep
      -- a coder that is done was found through its only consumer, which would be this input
      have hnotDone : marks₁[producer]? ≠ some .done := by
        intro hd
        rcases hsearched₁.found producer ((hsearched₁.done producer).mp hd) with hnone |
          ⟨input, hmem, hsource⟩
        · cases hnone
        · exact hnew₁ (source_inj hw hsource hs ▸ hmem)
      obtain ⟨hord', hground', inputs', hext, hsearched'⟩ :=
        ih (source_lt hw hs) hsearched₁ hnotDone hstep
      refine ⟨?_, ?_, insert (f.inBase coder + count) inputs', ?_, ?_, ?_, ?_⟩
      · rw [branches_succ, hs, ← List.append_assoc, ← hord]
        exact hord'
      · intro slot hlt p hp
        rcases Nat.lt_succ_iff_lt_or_eq.mp hlt with hlt | rfl
        · exact hground slot hlt p hp
        · rw [hs] at hp
          cases hp
          exact hground'
      · intro x hx
        have hx₁ := hkeeps x hx
        rw [hext.keeps x (by rw [hx₁]; exact hx), hx₁]
      · exact (hgrows.trans hext.grows).trans (Set.subset_insert _ _)
      · rintro input (rfl | hmem)
        · exact .inr (.inl ⟨count, Nat.lt_succ_self _, rfl⟩)
        · rcases hext.fresh input hmem with hin | ⟨index, slot, hlt, heq, hun⟩
          · rcases hfresh _ hin with hin | ⟨slot, hlt, heq⟩ | hun
            · exact .inl hin
            · exact .inr (.inl ⟨slot, by omega, heq⟩)
            · exact .inr (.inr hun)
          · refine .inr (.inr ⟨index, slot, hlt, heq, ?_⟩)
            by_contra hne
            rw [hkeeps index hne] at hun
            exact hne hun
      · refine ⟨hsearched'.done, hsearched'.nodup, fun x hx => .inr ?_, ?_, hsearched'.size⟩
        · rcases hsearched'.found x hx with heq | ⟨input, hmem, hsource⟩
          · cases heq
            exact ⟨_, Set.mem_insert _ _, hs⟩
          · exact ⟨input, Set.mem_insert_of_mem _ hmem, hsource⟩
        · rintro input (rfl | hmem)
          · refine ⟨coder, count, hslot, rfl, ?_⟩
            rw [hext.keeps coder (by rw [hcoder₁]; decide), hcoder₁]
            decide
          · exact hsearched'.visited input hmem

theorem visitCoder_unvisited {depth : ℕ} {marks' : List DfsMark} {order' : List ℕ}
    (hun : marks[coder]? = some .unvisited)
    (h : visitCoder f (depth + 1) coder (marks, order) = .ok (marks', order')) :
    ∃ marks₁ order₁, (List.range (numInAt f coder)).foldlM (visitInput f depth coder)
        (marks.set coder .inProgress, order) = .ok (marks₁, order₁) ∧
      marks' = marks₁.set coder .done ∧ order' = order₁ ++ [coder] := by
  unfold visitCoder at h
  rw [hun] at h
  dsimp only at h
  obtain ⟨⟨marks₁, order₁⟩, hloop, h⟩ := bind_eq_ok.mp h
  cases h
  exact ⟨marks₁, order₁, hloop, rfl, rfl⟩

/-- The search begins with a coder. -/
theorem Searched.enter (h : Searched f inputs none marks order)
    (hun : marks[coder]? = some .unvisited) :
    Searched f inputs none (marks.set coder .inProgress) order where
  done x := by
    rw [← h.done x]
    by_cases hx : coder = x
    · subst hx
      rw [List.getElem?_set_self (List.getElem?_eq_some_iff.mp hun).1, hun]
      exact ⟨nofun, nofun⟩
    · rw [List.getElem?_set_ne hx]
  nodup := h.nodup
  found := h.found
  visited input hmem := by
    obtain ⟨index, slot, hlt, heq, hne⟩ := h.visited input hmem
    refine ⟨index, slot, hlt, heq, ?_⟩
    by_cases hx : coder = index
    · subst hx
      exact absurd hun hne
    · rwa [List.getElem?_set_ne hx]
  size := by rw [List.length_set, h.size]

/-- The search leaves a coder. -/
theorem Searched.leave (h : Searched f inputs none marks order)
    (hprogress : marks[coder]? = some .inProgress) :
    Searched f inputs (some coder) (marks.set coder .done) (order ++ [coder]) where
  done x := by
    rw [List.mem_append, List.mem_singleton, ← h.done x]
    by_cases hx : coder = x
    · subst hx
      rw [List.getElem?_set_self (List.getElem?_eq_some_iff.mp hprogress).1]
      exact ⟨fun _ => .inr rfl, fun _ => rfl⟩
    · rw [List.getElem?_set_ne hx]
      exact ⟨.inl, fun hor => hor.resolve_right fun heq => hx heq.symm⟩
  nodup := by
    rw [List.nodup_append]
    refine ⟨h.nodup, List.nodup_singleton _, fun a ha b hb => ?_⟩
    rintro rfl
    rw [List.mem_singleton.mp hb] at ha
    have := (h.done coder).mpr ha
    rw [hprogress] at this
    cases this
  found x hx := by
    rcases List.mem_append.mp hx with hx | hx
    · exact .inr ((h.found x hx).resolve_left nofun)
    · exact .inl (congrArg some (List.mem_singleton.mp hx))
  visited input hmem := by
    obtain ⟨index, slot, hlt, heq, hne⟩ := h.visited input hmem
    refine ⟨index, slot, hlt, heq, ?_⟩
    by_cases hx : coder = index
    · subst hx
      rw [List.getElem?_set_self (List.getElem?_eq_some_iff.mp hprogress).1]
      decide
    · rwa [List.getElem?_set_ne hx]
  size := by rw [List.length_set, h.size]

/-- **A visit appends the post-order of the tree under the coder.** -/
theorem visitCoder_spec (hw : Wired f) : ∀ (depth : ℕ) {coder : ℕ} {inputs : Set ℕ}
    {marks : List DfsMark} {order : List ℕ} {marks' : List DfsMark} {order' : List ℕ},
    coder < f.coders.length → Searched f inputs none marks order → marks[coder]? ≠ some .done →
    visitCoder f depth coder (marks, order) = .ok (marks', order') →
    Visits f depth coder inputs marks order marks' order'
  | 0, _, _, _, _, _, _, _, _, _, h => by cases h
  | depth + 1, coder, inputs, marks, order, marks', order', hlt, hsearched, hnot, h => by
    have hun : marks[coder]? = some .unvisited := by
      have hlen : coder < marks.length := hsearched.size ▸ hlt
      have hsome := List.getElem?_eq_getElem hlen
      cases hmark : marks[coder] with
      | unvisited => rw [hsome, hmark]
      | done => rw [hmark] at hsome; exact absurd hsome hnot
      | inProgress =>
        rw [hmark] at hsome
        unfold visitCoder at h
        rw [hsome] at h
        cases h
    have hself : (marks.set coder .inProgress)[coder]? = some .inProgress :=
      List.getElem?_set_self (List.getElem?_eq_some_iff.mp hun).1
    obtain ⟨marks₁, order₁, hloop, rfl, rfl⟩ := visitCoder_unvisited hun h
    have hnew : ∀ slot < numInAt f coder, f.inBase coder + slot ∉ inputs := by
      intro slot hslot hmem
      obtain ⟨index, slot', hlt', heq, hne⟩ := hsearched.visited _ hmem
      obtain ⟨rfl, -⟩ := inBase_add_inj hslot hlt' heq
      exact hne hun
    obtain ⟨hord, hground, inputs', hkeeps, hgrows, hfresh, hsearched'⟩ :=
      foldlM_looped hw hself (hsearched.enter hun) hnew
        (fun hp hs hm hv => visitCoder_spec hw depth hp hs hm hv) le_rfl hloop
    have hprogress : marks₁[coder]? = some .inProgress := by
      rw [hkeeps coder (by rw [hself]; decide), hself]
    refine ⟨?_, hground, inputs', ⟨fun x hx => ?_, hgrows, fun input hmem => ?_⟩,
      hsearched'.leave hprogress⟩
    · rw [hord, postOrder_succ, List.append_assoc]
    · have hne : coder ≠ x := by
        rintro rfl
        exact hx hun
      have hset : (marks.set coder .inProgress)[x]? = marks[x]? := List.getElem?_set_ne hne
      rw [List.getElem?_set_ne hne, hkeeps x (by rw [hset]; exact hx), hset]
    · rcases hfresh input hmem with hin | ⟨slot, hslot, heq⟩ | ⟨index, slot, hslot, heq, hun'⟩
      · exact .inl hin
      · exact .inr ⟨coder, slot, hslot, heq, hun⟩
      · refine .inr ⟨index, slot, hslot, heq, ?_⟩
        have hne : coder ≠ index := by
          rintro rfl
          rw [hself] at hun'
          cases hun'
        rwa [List.getElem?_set_ne hne] at hun'

/-- **The decode order is the post-order of the tree under the coder of the final output**, in which
no coder occurs twice. -/
theorem order_of_resolved (hw : Wired f) (hr : Resolved f order) :
    ∃ sink, f.finalOutIndex = .ok sink ∧ sink < f.coders.length ∧
      order = postOrder f (f.coders.length + 1) sink ∧
      Grounded f (f.coders.length + 1) sink ∧ order.Nodup := by
  obtain ⟨final, sink, marks, hfinal, hsink, hvisit⟩ := hr.visited
  have hlt : final < f.coders.length := by
    rw [← totalOut_eq hw]
    exact List.mem_range.mp (List.mem_of_find?_eq_some (okOr_eq_ok.mp hfinal))
  rw [coderOfOut_eq hw hlt] at hsink
  cases hsink
  have hstart : Searched f ∅ none (List.replicate f.coders.length .unvisited) [] := by
    refine ⟨fun x => ?_, List.nodup_nil, fun _ hx => absurd hx List.not_mem_nil,
      fun _ hmem => absurd hmem (Set.notMem_empty _), List.length_replicate⟩
    rw [List.getElem?_replicate]
    split_ifs <;> simp
  obtain ⟨hord, hground, inputs', -, hsearched⟩ :=
    visitCoder_spec hw _ hlt hstart (by rw [List.getElem?_replicate, if_pos hlt]; decide) hvisit
  exact ⟨final, hfinal, hlt, by rw [hord, List.nil_append], hground, hsearched.nodup⟩

end LibarchiveOxide.SevenZip.Order

/-! # Cycles of bind pairs

The decode order has the coders that the final output depends on. It has all of them
(`perm_iff_acyclic`) if no coder lies on a cycle of bind pairs: a coder outside the order leads to
another one outside it, and so on. -/

namespace LibarchiveOxide.SevenZip.Trees

open SevenZip.Wire SevenZip.Graph SevenZip.Wiring SevenZip.Order

variable {f : Folder}

/-- A bind pair leads the output of a coder to an input of another. -/
def Feeds (f : Folder) (producer consumer : ℕ) : Prop :=
  ∃ pair ∈ f.bindPairs, f.coderOfOut pair.outIndex = some producer ∧
    ∃ slot < numInAt f consumer, pair.inIndex = f.inBase consumer + slot

/-- **No coder lies on a cycle of bind pairs.** -/
def Acyclic (f : Folder) : Prop := ∀ coder, ¬ Relation.TransGen (Feeds f) coder coder

theorem feeds_iff (hw : Wired f) {producer consumer : ℕ} : Feeds f producer consumer ↔
    ∃ slot < numInAt f consumer, source f (f.inBase consumer + slot) = some producer := by
  constructor
  · rintro ⟨pair, hmem, hout, slot, hslot, hin⟩
    rw [coderOfOut_eq hw (hw.inRange pair hmem).2] at hout
    cases hout
    exact ⟨slot, hslot, hin ▸ source_of_mem hw hmem⟩
  · rintro ⟨slot, hslot, hs⟩
    exact ⟨_, mem_of_source hs, coderOfOut_eq hw (source_lt hw hs), slot, hslot, rfl⟩

/-! ### Trees in the order -/

variable {depth : ℕ}

theorem mem_branches {coder count x : ℕ} : x ∈ branches f depth coder count ↔
    ∃ slot < count, ∃ producer, source f (f.inBase coder + slot) = some producer ∧
      x ∈ postOrder f depth producer := by
  unfold branches
  simp only [List.mem_flatMap, List.mem_range]
  refine exists_congr fun slot => and_congr_right fun _ => ?_
  cases source f (f.inBase coder + slot) with
  | none => simp
  | some producer => simp

theorem mem_postOrder_succ {coder x : ℕ} : x ∈ postOrder f (depth + 1) coder ↔
    x ∈ branches f depth coder (numInAt f coder) ∨ x = coder := by
  rw [postOrder_succ, List.mem_append, List.mem_singleton]

theorem grounded_succ : ∀ {depth coder : ℕ}, Grounded f depth coder → Grounded f (depth + 1) coder
  | 0, _, h => h.elim
  | _ + 1, _, h => fun slot hslot producer hs => grounded_succ (h slot hslot producer hs)

theorem grounded_of_mem : ∀ {depth coder x : ℕ}, Grounded f depth coder →
    x ∈ postOrder f depth coder → Grounded f depth x
  | 0, _, _, h, _ => h.elim
  | depth + 1, coder, x, h, hx => by
    rcases mem_postOrder_succ.mp hx with hx | rfl
    · obtain ⟨slot, hslot, producer, hs, hx⟩ := mem_branches.mp hx
      exact grounded_succ (grounded_of_mem (h slot hslot producer hs) hx)
    · exact h

theorem mem_self_of_grounded : ∀ {depth coder : ℕ}, Grounded f depth coder →
    coder ∈ postOrder f depth coder
  | 0, _, h => h.elim
  | _ + 1, _, _ => mem_postOrder_succ.mpr (.inr rfl)

/-- The order has what its coders depend on. -/
theorem closed_of_grounded : ∀ {depth coder x producer slot : ℕ}, Grounded f depth coder →
    x ∈ postOrder f depth coder → slot < numInAt f x →
    source f (f.inBase x + slot) = some producer → producer ∈ postOrder f depth coder
  | 0, _, _, _, _, h, _, _, _ => h.elim
  | depth + 1, coder, x, producer, slot, h, hx, hslot, hs => by
    rcases mem_postOrder_succ.mp hx with hx | rfl
    · obtain ⟨slot', hslot', producer', hs', hx⟩ := mem_branches.mp hx
      exact mem_postOrder_succ.mpr (.inl (mem_branches.mpr
        ⟨slot', hslot', producer', hs', closed_of_grounded (h slot' hslot' producer' hs') hx hslot hs⟩))
    · exact mem_postOrder_succ.mpr (.inl (mem_branches.mpr
        ⟨slot, hslot, producer, hs, mem_self_of_grounded (h slot hslot producer hs)⟩))

theorem lt_of_mem_postOrder (hw : Wired f) : ∀ {depth coder x : ℕ}, coder < f.coders.length →
    x ∈ postOrder f depth coder → x < f.coders.length
  | 0, _, _, _, h => absurd h List.not_mem_nil
  | depth + 1, coder, x, hlt, h => by
    rcases mem_postOrder_succ.mp h with h | rfl
    · obtain ⟨slot, -, producer, hs, hx⟩ := mem_branches.mp h
      exact lt_of_mem_postOrder hw (source_lt hw hs) hx
    · exact hlt

/-! ### Cycles -/

theorem acc_of_grounded (hw : Wired f) : ∀ {depth coder : ℕ}, Grounded f depth coder →
    Acc (Feeds f) coder
  | 0, _, h => h.elim
  | _ + 1, _, h => Acc.intro _ fun producer hfeeds => by
    obtain ⟨slot, hslot, hs⟩ := (feeds_iff hw).mp hfeeds
    exact acc_of_grounded hw (h slot hslot producer hs)

theorem not_transGen_of_acc {α : Type} {r : α → α → Prop} {a : α} (h : Acc r a) :
    ¬ Relation.TransGen r a a := by
  induction h with
  | intro a _ ih =>
    intro hcycle
    rcases Relation.TransGen.tail'_iff.mp hcycle with ⟨b, hab, hba⟩
    exact ih b hba (.head' hba hab)

theorem lt_of_transGen (hw : Wired f) {a b : ℕ} (h : Relation.TransGen (Feeds f) a b) :
    a < f.coders.length := by
  induction h using Relation.TransGen.head_induction_on with
  | single hfeeds =>
    obtain ⟨slot, -, hs⟩ := (feeds_iff hw).mp hfeeds
    exact source_lt hw hs
  | head hfeeds _ _ =>
    obtain ⟨slot, -, hs⟩ := (feeds_iff hw).mp hfeeds
    exact source_lt hw hs

/-- Every coder but that of the final output feeds another. -/
theorem exists_consumer (hw : Wired f) {final coder : ℕ} (hfinal : f.finalOutIndex = .ok final)
    (hlt : coder < f.coders.length) (hne : coder ≠ final) :
    ∃ consumer < f.coders.length, ∃ slot < numInAt f consumer,
      source f (f.inBase consumer + slot) = some coder := by
  obtain ⟨pair, hmem, hout⟩ := consumed_of_ne_final hw hfinal hlt hne
  obtain ⟨consumer, slot, hslot, hin⟩ := exists_owner (hw.inRange pair hmem).1
  have hs := source_of_mem hw hmem
  rw [hin, hout] at hs
  refine ⟨consumer, ?_, slot, hslot, hs⟩
  by_contra hge
  rw [numInAt, List.getElem?_eq_none (Nat.le_of_not_lt hge)] at hslot
  exact absurd hslot (Nat.not_lt_zero _)

/-- Without cycles the order has every coder. -/
theorem mem_order_of_acyclic (hw : Wired f) {final : ℕ} (hfinal : f.finalOutIndex = .ok final)
    (hground : Grounded f depth final) (hacyclic : Acyclic f) {coder : ℕ}
    (hlt : coder < f.coders.length) : coder ∈ postOrder f depth final := by
  let later : Fin f.coders.length → Fin f.coders.length → Prop :=
    fun a b => Relation.TransGen (Feeds f) b a
  have htrans : IsTrans _ later := ⟨fun _ _ _ hab hbc => hbc.trans hab⟩
  have hirrefl : Std.Irrefl later := ⟨fun a => hacyclic a⟩
  have hwf : WellFounded later := Finite.wellFounded_of_trans_of_irrefl later
  suffices hall : ∀ c : Fin f.coders.length, c.val ∈ postOrder f depth final from hall ⟨coder, hlt⟩
  intro c
  -- the induction goes from the consumers to what they depend on
  induction c using hwf.induction with
  | h c ih =>
    by_cases hc : c.val = final
    · rw [hc]
      exact mem_self_of_grounded hground
    · obtain ⟨consumer, hconsumer, slot, hslot, hs⟩ := exists_consumer hw hfinal c.isLt hc
      have hfeeds : Feeds f c consumer := (feeds_iff hw).mpr ⟨slot, hslot, hs⟩
      exact closed_of_grounded hground (ih ⟨consumer, hconsumer⟩ (.single hfeeds)) hslot hs

/-- **The decode order has every coder once exactly if there are no cycles.** -/
theorem perm_iff_acyclic (hw : Wired f) {final : ℕ} (hfinal : f.finalOutIndex = .ok final)
    (hlt : final < f.coders.length) (hground : Grounded f depth final)
    (hnodup : (postOrder f depth final).Nodup) :
    (postOrder f depth final).Perm (List.range f.coders.length) ↔ Acyclic f := by
  constructor
  · intro hperm coder hcycle
    have hmem : coder ∈ postOrder f depth final :=
      hperm.mem_iff.mpr (List.mem_range.mpr (lt_of_transGen hw hcycle))
    exact not_transGen_of_acc (acc_of_grounded hw (grounded_of_mem hground hmem)) hcycle
  · intro hacyclic
    rw [List.perm_ext_iff_of_nodup hnodup List.nodup_range]
    intro coder
    rw [List.mem_range]
    exact ⟨lt_of_mem_postOrder hw hlt, mem_order_of_acyclic hw hfinal hground hacyclic⟩

end LibarchiveOxide.SevenZip.Trees
