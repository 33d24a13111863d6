import JsonDom.Proof.Refine
import JsonDom.Proof.Silence

/-!
# Requests the parser heeds

Where the first request that is refused is one the parser heeds, every function that was called returns
false, and nothing old has changed in memory (`Gives`, by induction on the fuel; `parseFile_refused`).
A message is in the record then if there was one before, a collection has ended, or it was the node of a
collection (`Hushed`). What was granted before is done as the reader says (`Agree`).
-/

namespace JsonDom

open Lib OTree

variable {w w' : World} {c : Option Parent}

/-! ## The first request that is refused -/

section

variable {r : Request} {rs rs' : List Request}

theorem World.Refuses.exists (h : w.Refuses rs) : ∃ r ∈ rs, r.heeded = true := by
  obtain ⟨k, r, hk, hr, -⟩ := h
  exact ⟨r, List.mem_of_getElem? hk, hr⟩

theorem not_refuses (h : ∀ r ∈ rs, r.heeded = false) : ¬ w.Refuses rs := by
  intro hf
  obtain ⟨r, hm, hr⟩ := hf.exists
  rw [h r hm] at hr
  cases hr

theorem not_refuses_nil : ¬ w.Refuses [] := not_refuses (by simp)

/-- It is one of the first ones or of those behind them. -/
theorem World.Refuses.split (h : w.Refuses (rs ++ rs')) : w.Refuses rs ∨ w.Grants rs ∧
    ∀ w1 : World, w1.oracle = w.oracle → w1.mallocs = w.mallocs + rs.length → w1.Refuses rs' := by
  obtain ⟨k, r, hk, hr, hg, hno⟩ := h
  rcases Nat.lt_or_ge k rs.length with hlt | hge
  · rw [List.getElem?_append_left hlt] at hk
    exact .inl ⟨k, r, hk, hr, hg, hno⟩
  · rw [List.getElem?_append_right hge] at hk
    refine .inr ⟨hg.mono hge, ?_⟩
    intro w1 ho hm
    refine ⟨k - rs.length, r, hk, hr, fun i hi => ?_, ?_⟩
    · rw [ho, hm, Nat.add_assoc]
      exact hg _ (by omega)
    · rw [ho, hm, Nat.add_assoc, Nat.add_sub_cancel' hge]
      exact hno

theorem World.Refuses.cases (h : w.Refuses (r :: rs)) : r.heeded = true ∧ w.oracle w.mallocs = false ∨
    w.oracle w.mallocs = true ∧
      ∀ w1 : World, w1.oracle = w.oracle → w1.mallocs = w.mallocs + 1 → w1.Refuses rs := by
  rcases @World.Refuses.split w [r] rs h with ⟨k, r', hk, hr, -, hno⟩ | ⟨hg, hlater⟩
  · have hzero : k = 0 := by
      have hlt := List.getElem?_eq_some_iff.1 hk
      obtain ⟨hlt, -⟩ := hlt
      simpa using hlt
    subst hzero
    cases hk
    exact .inl ⟨hr, hno⟩
  · exact .inr ⟨hg.head, hlater⟩

/-- It is one of the first ones where the others are not heeded. -/
theorem World.Refuses.left (h : w.Refuses (rs ++ rs')) (hno : ∀ r ∈ rs', r.heeded = false) : w.Refuses rs :=
  h.split.resolve_right fun hr =>
    not_refuses hno (hr.2 { w with mallocs := w.mallocs + rs.length } rfl rfl)

/-- What is refused does not depend on the file. -/
theorem World.Refuses.congr (h : w.Refuses rs) (ho : w'.oracle = w.oracle) (hm : w'.mallocs = w.mallocs) :
    w'.Refuses rs := by
  obtain ⟨k, r, hk, hr, hg, hno⟩ := h
  refine ⟨k, r, hk, hr, ?_, ?_⟩
  · rw [ho, hm]
    exact hg
  · rw [ho, hm]
    exact hno

theorem quoted_heeded (s : Src) : ∀ r ∈ Reader.quotedRequests s, r.heeded = false := by
  intro r hr
  unfold Reader.quotedRequests leafRequests at hr
  split at hr
  · rcases List.mem_append.1 hr with hr | hr
    · rw [List.eq_of_mem_replicate hr]
      rfl
    · rw [List.mem_singleton.1 hr]
      rfl
  · rw [List.eq_of_mem_replicate hr]
    rfl

end

/-! ## The statements -/

/-- There is no message behind the events `es` if there was none and the refused request is silent. -/
def Hushed (w w' : World) (es : List Event) : Prop :=
  w'.pe.message = none ↔ w.pe.message = none ∧ silent w.oracle w.mallocs es = true

section

variable {es es' : List Event}

theorem Hushed.src {s : Src} (hpe : s.pe = w.pe) (h : Hushed { w with toSrc := s } w' es) : Hushed w w' es := by
  unfold Hushed at h ⊢
  rwa [← hpe]

/-- The refused request is among the first ones. -/
theorem Hushed.first (hf : w.Refuses (requestsOf es)) (h : Hushed w w' es) : Hushed w w' (es ++ es') := by
  obtain ⟨k, r, hk, -, -, hno⟩ := hf
  unfold Hushed at h ⊢
  rwa [silent_refused ⟨k, (List.getElem?_eq_some_iff.1 hk).1, hno⟩]

/-- The first ones are granted, and have left a report if a collection has ended. -/
theorem Hushed.later {w1 : World} (hg : w.Grants (requestsOf es)) (ho : w1.oracle = w.oracle)
    (hm : w1.mallocs = w.mallocs + (requestsOf es).length)
    (hpe : w1.pe.message = none ↔ w.pe.message = none ∧ Event.ended ∉ es) (h : Hushed w1 w' es') :
    Hushed w w' (es ++ es') := by
  unfold Hushed at h ⊢
  rw [h, hpe, silent_granted hg, ho, hm, and_assoc]

/-- A lexeme is silent. -/
theorem Hushed.lexeme {rs : List Request} (h : Request.collection ∉ rs) (hpe : w'.pe = w.pe) :
    Hushed w w' (rs.map .asks) := by
  unfold Hushed
  rw [hpe, silent_lexeme h]
  exact (and_iff_left rfl).symm

end

/-- The function returns false, what was there is as it was, and the record tells of the events. -/
def Fails (w : World) (events : List Event) (res : Except Halt ((Bool × Ptr × Option UInt8) × World)) : Prop :=
  ∃ p es w', res = .ok ((false, p, es), w') ∧ Kept w.heap.size w w' ∧ Hushed w w' events

/-- With this much fuel the parser gives up where a request is refused that it heeds. -/
structure Gives (fuel : Nat) : Prop where
  value {w : World} {c : Option Parent} {es : Option UInt8} (node : Ptr) (chr : UInt8) :
    w.Refuses (Reader.valueRequests fuel chr w.toSrc) → Stands w.heap c →
    Fails w (Reader.valueEvents fuel chr w.toSrc) (jParser fuel (Parent.ptr c) node chr es w)
  collection {w : World} {c : Option Parent} (k : Kind) (node : Ptr) :
    w.Refuses (Reader.collectionRequests fuel k w.toSrc) →
    ∃ w', parseCollection fuel (Parent.ptr c) k.tools node w = .ok ((false, node), w') ∧
      Kept w.heap.size w w' ∧ Hushed w w' (Reader.collectionEvents fuel k w.toSrc)
  items {w0 w : World} {k : Kind} {a : Addr} {xs : List Item} (needs : Bool) :
    w.Refuses (Reader.itemsRequests fuel k (xs.map Item.pair) needs w.toSrc) → Building w0 w k a xs →
    ∃ w' xs', parseCollection.loop fuel k.tools (some a) needs w = .ok (.earlyExit, w') ∧
      Building w0 w' k a xs' ∧ Hushed w w' (Reader.itemsEvents fuel k (xs.map Item.pair) needs w.toSrc)
  item {w0 w : World} {k : Kind} {a : Addr} {xs : List Item} (chr : UInt8) :
    w.Refuses (Reader.itemRequests fuel k (xs.map Item.pair) chr w.toSrc) → Building w0 w k a xs →
    ∃ w' xs', parseCollection.member fuel k.tools (some a) chr w = .ok (.earlyExit, w') ∧
      Building w0 w' k a xs' ∧ Hushed w w' (Reader.itemEvents fuel k (xs.map Item.pair) chr w.toSrc)
  member {w : World} {c : Option Parent} (k : Kind) (node : Ptr) (chr : UInt8) :
    w.Refuses (Reader.memberRequests fuel k chr w.toSrc) → Stands w.heap c →
    Fails w (Reader.memberEvents fuel k chr w.toSrc)
      (readMember fuel k.tools (Parent.ptr c) node chr (some 0) w)
  property {w : World} {c : Option Parent} {es : Option UInt8} (node : Ptr) (chr : UInt8) :
    w.Refuses (Reader.propertyRequests fuel chr w.toSrc) → Stands w.heap c →
    Fails w (Reader.propertyEvents fuel chr w.toSrc) (objectReadMember fuel (Parent.ptr c) node chr es w)
  afterLabel {w0 w : World} {c : Option Parent} {es : Option UInt8} {q : Addr} {label : Bytes}
    (node : Ptr) (past : Bool) : w.Refuses (Reader.afterLabelRequests fuel past w.toSrc) →
    Stands w0.heap c → Kept w0.heap.size w0 w →
    w0.heap.size ≤ q → w.heap.get? q = some (.text (label ++ [0])) →
    ∃ p es' w', objectReadMember.loop fuel (Parent.ptr c) node es (some q) past w =
        .ok (((false, p, es'), some q), w') ∧ Kept w0.heap.size w0 w' ∧
      w'.heap.get? q = some (.text (label ++ [0])) ∧
      Hushed w w' (Reader.afterLabelEvents fuel past w.toSrc)

theorem gives_zero : Gives 0 where
  value _ _ h _ := absurd h not_refuses_nil
  collection _ _ h := absurd h not_refuses_nil
  items _ h _ := absurd h not_refuses_nil
  item _ h _ := absurd h not_refuses_nil
  member k _ _ h _ := by cases k <;> exact absurd h not_refuses_nil
  property _ _ h _ := absurd h not_refuses_nil
  afterLabel _ _ h _ _ _ _ := absurd h not_refuses_nil

/-! ## One step of the fuel -/

/-- Of a scalar only the string of an unquoted lexeme at the end of the file is heeded. -/
theorem parseScalar_refused {chr : UInt8} {es : Option UInt8}
    (hf : w.Refuses (Reader.scalarRequests chr w.toSrc)) :
    Fails w ((Reader.scalarRequests chr w.toSrc).map .asks) (parseScalar (Parent.ptr c) chr es w) := by
  have hsilent := fun w' => @Hushed.lexeme w w' _ (scalar_collection chr w.toSrc)
  unfold Reader.scalarRequests at hf
  by_cases hq : chr = ch '"'
  · rw [if_pos hq] at hf
    refine absurd hf (not_refuses fun r hr => ?_)
    split at hr
    · rcases List.mem_append.1 hr with hr | hr
      · exact quoted_heeded _ r hr
      · rw [List.mem_singleton.1 hr]
        rfl
    · exact quoted_heeded _ r hr
  rw [if_neg hq] at hf
  have hbare : w.Refuses (Reader.bareRequests w.toSrc) := by
    split at hf
    · next J e s ho =>
      refine hf.left fun r hr => ?_
      rcases List.mem_cons.1 hr with rfl | hr
      · rfl
      · cases J <;> simp [Reader.copyRequests] at hr <;> rw [hr] <;> rfl
    · refine hf.left fun r hr => ?_
      rw [List.mem_singleton.1 hr]
      rfl
  obtain ⟨w', hk, hrun, hpe⟩ := readUnquoted_refused hq hbare
  refine ⟨none, es, w', ?_, hk, hsilent w' hpe⟩
  unfold parseScalar
  rw [M.bind_ok hrun]
  rfl

theorem Fails.src {s : Src} {events : List Event} {res : Except Halt ((Bool × Ptr × Option UInt8) × World)}
    (hpe : s.pe = w.pe) (h : Fails { w with toSrc := s } events res) : Fails w events res := by
  obtain ⟨p, es, w', hrun, hk, hs⟩ := h
  exact ⟨p, es, w', hrun, ⟨hk.size, hk.frame, hk.oracle, hk.stdout⟩, hs.src hpe⟩

section Step

variable {fuel : Nat} (ih : Gives fuel)
include ih

theorem value_gives {es : Option UInt8} (node : Ptr) (chr : UInt8)
    (hf : w.Refuses (Reader.valueRequests (fuel + 1) chr w.toSrc)) (hc : Stands w.heap c) :
    Fails w (Reader.valueEvents (fuel + 1) chr w.toSrc) (jParser (fuel + 1) (Parent.ptr c) node chr es w) := by
  unfold Reader.valueRequests at hf
  unfold jParser Reader.valueEvents
  generalize (if chr ≠ 0 then chr else ch ' ') = b at hf ⊢
  have hskip := @skipSpace_run fuel b w
  cases hb : Reader.blanks fuel b w.toSrc with
  | timeout | fail =>
    rw [hb] at hf
    exact absurd hf not_refuses_nil
  | ok chr s =>
    rw [hb] at hskip hf
    rw [M.bind_ok hskip]
    dsimp only at hf ⊢
    obtain ⟨w1, hw1⟩ : ∃ w1, w1 = { w with toSrc := s } := ⟨_, rfl⟩
    have hc' : Stands w1.heap c := by rw [hw1]; exact hc
    have hsrc : w1.toSrc = s := by rw [hw1]
    have hcoll : ∀ k : Kind, w.Refuses (Reader.collectionRequests fuel k s) →
        Fails w1 (Reader.collectionEvents fuel k s) ((do
          let p ← parseCollection fuel (Parent.ptr c) k.tools none
          if p.1 then pure (true, p.2, es) else pure (false, node, es) :
            M (Bool × Ptr × Option UInt8)) w1) := by
      intro k hf
      obtain ⟨w2, hrun, hk, hs⟩ := ih.collection k none (by rw [hsrc, hw1]; exact hf)
      exact ⟨node, es, w2, M.bind_ok hrun, hk, hsrc ▸ hs⟩
    apply Fails.src (blanks_sound hb).2.1
    rw [← hw1]
    by_cases h1 : chr = ch '['
    · rw [if_pos h1] at hf
      rw [if_pos h1, if_pos h1]
      exact hcoll .arr hf
    rw [if_neg h1] at hf
    rw [if_neg h1, if_neg h1]
    by_cases h2 : chr = ch '{'
    · rw [if_pos h2] at hf
      rw [if_pos h2, if_pos h2]
      exact hcoll .obj hf
    · rw [if_neg h2] at hf
      rw [if_neg h2, if_neg h2, ← hsrc]
      exact parseScalar_refused (by rw [hsrc, hw1]; exact hf)

theorem collection_gives (k : Kind) (node : Ptr)
    (hf : w.Refuses (Reader.collectionRequests (fuel + 1) k w.toSrc)) :
    ∃ w', parseCollection (fuel + 1) (Parent.ptr c) k.tools node w = .ok ((false, node), w') ∧
      Kept w.heap.size w w' ∧ Hushed w w' (Reader.collectionEvents (fuel + 1) k w.toSrc) := by
  unfold Reader.collectionRequests at hf
  unfold Reader.collectionEvents
  rcases hf.cases with ⟨-, hno⟩ | ⟨ho, hlater⟩
  · refine ⟨{ w with mallocs := w.mallocs + 1, toSrc := w.toSrc.report "unterminated collection" }, ?_,
      ⟨Nat.le_refl _, fun _ _ => rfl, rfl, rfl⟩, iff_of_false (Option.some_ne_none _) fun hn => ?_⟩
    rotate_left
    · rw [silent, hno] at hn
      exact absurd hn.2 Bool.false_ne_true
    unfold parseCollection
    rw [M.bind_ok (create_fail hno _ _), if_neg (by simp)]
    exact M.bind_ok (report_run _ _)
  · obtain ⟨w2, hs, hb, hsp, hrun⟩ := collection_start k node fuel ho
    obtain ⟨w3, xs, hrun3, hb3, hs3⟩ :=
      ih.items false (by rw [hs.src]; exact hlater w2 hs.oracle hsp.mallocs) hb
    obtain ⟨w4, hrun4, hk4, hsrc4, -⟩ := discard hb3.grown hb3.oracle hb3.stdout
    have hpe2 : w2.pe = w.pe := by rw [hs.src]
    have hs4 : Hushed w2 w4 (Reader.itemsEvents fuel k [] false w2.toSrc) := by
      unfold Hushed
      rw [hsrc4]
      exact hs3
    rw [hs.src] at hs4
    refine ⟨w4, ?_, hk4, @Hushed.later w w4 [.asks .collection] _ w2 (fun i hi => ?_) hs.oracle hsp.mallocs
      (by rw [hpe2]; simp) hs4⟩
    · rw [hrun, M.bind_ok hrun3]
      exact M.bind_ok hrun4
    · obtain rfl : i = 0 := Nat.lt_one_iff.1 hi
      exact ho

theorem items_gives {w0 : World} {k : Kind} {a : Addr} {xs : List Item} (needs : Bool)
    (hf : w.Refuses (Reader.itemsRequests (fuel + 1) k (xs.map Item.pair) needs w.toSrc))
    (hb : Building w0 w k a xs) :
    ∃ w' xs', parseCollection.loop (fuel + 1) k.tools (some a) needs w = .ok (.earlyExit, w') ∧
      Building w0 w' k a xs' ∧
      Hushed w w' (Reader.itemsEvents (fuel + 1) k (xs.map Item.pair) needs w.toSrc) := by
  obtain ⟨r, s, hr⟩ : ∃ r s, w.toSrc.read = (r, s) := ⟨_, _, rfl⟩
  cases r with
  | zero | minusOne =>
    unfold Reader.itemsRequests at hf
    rw [hr] at hf
    exact absurd hf not_refuses_nil
  | one chr =>
    obtain ⟨w1, hw1⟩ : ∃ w1, w1 = { w with toSrc := s } := ⟨_, rfl⟩
    have hb1 : Building w0 w1 k a xs := hw1 ▸ hb.src s
    have hs1 : w1.toSrc = s := by rw [hw1]
    have hpe : s.pe = w.pe := (read_one hr).2
    obtain ⟨n, hn, hfirst⟩ := hb.firstChild
    rw [Reader.itemsRequests_one hr] at hf
    rw [loop_one hr hn, hfirst, ← hw1, Reader.itemsEvents_one hr]
    cases hact : loopAct k (xs.map Item.pair ≠ []) needs chr <;> rw [hact] at hf
    case again flag =>
      obtain ⟨w', xs', hrun, hb', hs'⟩ := ih.items flag (by rw [hs1, hw1]; exact hf) hb1
      exact ⟨w', xs', hrun, hb', .src hpe (by rw [← hw1]; exact hs1 ▸ hs')⟩
    case member =>
      obtain ⟨w', xs', hrun, hb', hs'⟩ := ih.item chr (by rw [hs1, hw1]; exact hf) hb1
      exact ⟨w', xs', hrun, hb', .src hpe (by rw [← hw1]; exact hs1 ▸ hs')⟩
    all_goals exact absurd hf not_refuses_nil

theorem item_gives {w0 : World} {k : Kind} {a : Addr} {xs : List Item} (chr : UInt8)
    (hf : w.Refuses (Reader.itemRequests (fuel + 1) k (xs.map Item.pair) chr w.toSrc))
    (hb : Building w0 w k a xs) :
    ∃ w' xs', parseCollection.member (fuel + 1) k.tools (some a) chr w = .ok (.earlyExit, w') ∧
      Building w0 w' k a xs' ∧
      Hushed w w' (Reader.itemEvents (fuel + 1) k (xs.map Item.pair) chr w.toSrc) := by
  have hsame := (sameRequests fuel).member k chr w.toSrc
  unfold Reader.itemRequests at hf
  unfold parseCollection.member Reader.itemEvents
  rcases hf.split with hf | ⟨hg, hlater⟩
  · obtain ⟨p, es, w1, hrun, hk, hs⟩ := ih.member k none chr hf hb.stands
    exact ⟨w1, xs, M.bind_ok hrun, hb.kept hk, hs.first (by rw [hsame]; exact hf)⟩
  have hmember := (agree fuel).member k none chr hg hb.stands
  cases ho : Reader.member fuel k chr w.toSrc with
  | timeout | fail =>
    rw [ho] at hlater
    exact absurd (hlater { w with
      mallocs := w.mallocs + (Reader.memberRequests fuel k chr w.toSrc).length } rfl rfl) not_refuses_nil
  | ok p s =>
    obtain ⟨pair, e⟩ := p
    have hreport := member_reported ho
    rw [ho] at hmember hlater
    obtain ⟨t, w1, hrun, hm, hstored, hsp⟩ := hmember
    obtain ⟨x, hpair, rfl, hx⟩ := hstored
    have hb1 := hb.push hm hx
    rw [← hm.src] at hreport
    have hpush : ∀ {w' : World} {es : List Event}, Hushed w1 w' es →
        Hushed w w' (Reader.memberEvents fuel k chr w.toSrc ++ es) := fun h =>
      h.later (by rw [hsame]; exact hg) hm.oracle (by rw [hsame]; exact hsp.mallocs) hreport
    have hacc : xs.map Item.pair ++ [pair] = (xs ++ [x]).map Item.pair := by rw [List.map_append, ← hpair]; rfl
    have hf1 := hlater w1 hm.oracle hsp.mallocs
    dsimp only at hf1 ⊢
    rw [hacc, ← hm.src] at hf1 ⊢
    have hrun' : readMember fuel k.tools (some a) none chr (some 0) w =
      .ok ((true, some (x.node k).addr, some (e.getD 0)), w1) := hrun
    rw [M.bind_ok hrun']
    dsimp only
    rw [if_pos rfl, Option.getD_some, isEndChar_eq]
    by_cases h1 : e.getD 0 = ch ','
    · simp only [if_pos h1] at hf1 ⊢
      obtain ⟨w', xs', hrun2, hb2, hs2⟩ := ih.items true hf1 hb1
      exact ⟨w', xs', hrun2, hb2, hpush hs2⟩
    rw [if_neg h1] at hf1
    rw [if_neg h1, if_neg h1]
    by_cases h2 : e.getD 0 = k.closeChar
    · rw [if_pos h2] at hf1
      exact absurd hf1 not_refuses_nil
    rw [if_neg h2] at hf1
    rw [if_neg (mt beq_iff_eq.1 h2), if_neg h2]
    by_cases h3 : (decide (e.getD 0 = ch '"') && decide (chr = ch '"') || decide (e.getD 0 = 0) ||
        isspace (e.getD 0)) = true
    · rw [if_pos h3] at hf1
      rw [if_pos h3, if_pos h3]
      obtain ⟨w', xs', hrun2, hb2, hs2⟩ := ih.items false hf1 hb1
      exact ⟨w', xs', hrun2, hb2, hpush hs2⟩
    · rw [if_neg h3] at hf1
      exact absurd hf1 not_refuses_nil

theorem member_gives (k : Kind) (node : Ptr) (chr : UInt8)
    (hf : w.Refuses (Reader.memberRequests (fuel + 1) k chr w.toSrc)) (hc : Stands w.heap c) :
    Fails w (Reader.memberEvents (fuel + 1) k chr w.toSrc)
      (readMember (fuel + 1) k.tools (Parent.ptr c) node chr (some 0) w) := by
  cases k with
  | arr =>
    unfold Reader.memberRequests at hf
    unfold Reader.memberEvents
    exact ih.value node chr hf hc
  | obj =>
    unfold Reader.memberRequests at hf
    unfold Reader.memberEvents
    exact ih.property node chr hf hc

theorem property_gives {es : Option UInt8} (node : Ptr) (chr : UInt8)
    (hf : w.Refuses (Reader.propertyRequests (fuel + 1) chr w.toSrc)) (hc : Stands w.heap c) :
    Fails w (Reader.propertyEvents (fuel + 1) chr w.toSrc)
      (objectReadMember (fuel + 1) (Parent.ptr c) node chr es w) := by
  unfold Reader.propertyRequests at hf
  unfold objectReadMember Reader.propertyEvents
  by_cases hq : chr = ch '"'
  · rw [if_neg (not_not.2 hq)] at hf
    rw [if_neg (not_not.2 hq), if_neg (not_not.2 hq)]
    subst hq
    obtain ⟨hg, hlater⟩ := hf.split.resolve_left (not_refuses (quoted_heeded _))
    obtain ⟨⟨t, e⟩, s', hl⟩ : ∃ r s', w.toSrc.lex endCheckForQuoted = (r, s') := ⟨_, _, rfl⟩
    obtain ⟨w1, hk, hm, hres⟩ := readQuoted_run hl hg
    have hf1 := hlater w1 hk.oracle hm
    unfold Reader.quoted at hf1 ⊢
    rw [hl] at hf1 ⊢
    cases e with
    | none => exact absurd hf1 not_refuses_nil
    | some e =>
      obtain ⟨q, hrun, hsrc, hlo, htext, -⟩ := hres
      rw [M.bind_ok hrun]
      dsimp only at hf1 ⊢
      rw [if_pos rfl]
      rw [← hsrc] at hf1 ⊢
      obtain ⟨p, es', w2, hrun2, hk2, htext2, hs2⟩ :=
        @Gives.afterLabel _ ih w w1 c es q t node false hf1 hc hk hlo htext
      have hpe1 : w1.pe = w.pe := by
        rw [hsrc]
        exact (lexSrc_eq hl).2.2
      have hs3 : Hushed w1 { w2 with heap := w2.heap.release q } _ := hs2
      refine ⟨p, es', { w2 with heap := w2.heap.release q }, ?_, ⟨?_, fun x hx => ?_, hk2.oracle, hk2.stdout⟩,
        hs3.later (by rw [requestsOf_map]; exact hg) hk.oracle (by rw [requestsOf_map]; exact hm)
          (by rw [hpe1]; simp)⟩
      · rw [M.bind_ok hrun2]
        unfold readStringDestroy
        dsimp only
        rw [M.bind_ok (M.bind_ok (free_run w2 htext2))]
        rfl
      · rw [Store.size_release]
        exact hk2.size
      · rw [Store.get?_release_ne (Nat.ne_of_lt (Nat.lt_of_lt_of_le hx hlo)), hk2.frame x hx]
  · rw [if_pos hq] at hf
    exact absurd hf not_refuses_nil

theorem afterLabel_gives {w0 : World} {es : Option UInt8} {q : Addr} {label : Bytes} (node : Ptr)
    (past : Bool) (hf : w.Refuses (Reader.afterLabelRequests (fuel + 1) past w.toSrc))
    (hc : Stands w0.heap c) (hk : Kept w0.heap.size w0 w)
    (hlo : w0.heap.size ≤ q) (htext : w.heap.get? q = some (.text (label ++ [0]))) :
    ∃ p es' w', objectReadMember.loop (fuel + 1) (Parent.ptr c) node es (some q) past w =
        .ok (((false, p, es'), some q), w') ∧ Kept w0.heap.size w0 w' ∧
      w'.heap.get? q = some (.text (label ++ [0])) ∧
      Hushed w w' (Reader.afterLabelEvents (fuel + 1) past w.toSrc) := by
  unfold Reader.afterLabelRequests at hf
  unfold objectReadMember.loop Reader.afterLabelEvents
  rw [M.bind_ok (read_run w)]
  obtain ⟨r, s, hr⟩ : ∃ r s, w.toSrc.read = (r, s) := ⟨_, _, rfl⟩
  rw [hr] at hf ⊢
  cases r with
  | zero | minusOne => exact absurd hf not_refuses_nil
  | one chr =>
    dsimp only at hf ⊢
    obtain ⟨w1, hw1⟩ : ∃ w1, w1 = { w with toSrc := s } := ⟨_, rfl⟩
    have hk1 : Kept w0.heap.size w0 w1 := hw1 ▸ hk.trans (.src _ w s) (Nat.le_refl _)
    have htext1 : w1.heap.get? q = some (.text (label ++ [0])) := by rw [hw1]; exact htext
    have hs1 : w1.toSrc = s := by rw [hw1]
    rw [← hw1]
    have hpe : w1.pe = w.pe := by
      rw [hs1]
      exact (read_one hr).2
    have hpush : ∀ {w' : World} {es : List Event}, Hushed w1 w' es → Hushed w w' es := fun h =>
      .src (hs1 ▸ hpe) (by rw [← hw1]; exact h)
    have hloop := fun past (h : w.Refuses (Reader.afterLabelRequests fuel past s)) =>
      @Gives.afterLabel _ ih w0 w1 c es q label node past (by rw [hs1, hw1]; exact h) hc hk1 hlo htext1
    rw [← hs1]
    by_cases h1 : isspace chr = true
    · simp only [if_pos h1] at hf ⊢
      obtain ⟨p, es', w', hrun, hk', htext', hs'⟩ := hloop past hf
      exact ⟨p, es', w', hrun, hk', htext', hpush hs'⟩
    rw [if_neg h1] at hf
    rw [if_neg h1, if_neg h1]
    by_cases h2 : chr = ch ':'
    · simp only [if_pos h2] at hf ⊢
      obtain ⟨p, es', w', hrun, hk', htext', hs'⟩ := hloop true hf
      exact ⟨p, es', w', hrun, hk', htext', hpush hs'⟩
    rw [if_neg h2] at hf
    rw [if_neg h2, if_neg h2]
    cases past with
    | false =>
      simp only [Bool.false_eq_true, if_false] at hf
      exact absurd hf not_refuses_nil
    | true =>
      simp only [if_true] at hf ⊢
      rw [← hs1] at hf
      have hf1 := @World.Refuses.congr w w1 _ hf (by rw [hw1]) (by rw [hw1])
      have hq : q < w1.heap.size := Store.lt_size htext1
      have hsame := (sameRequests fuel).value chr w1.toSrc
      rcases hf1.split with hf1 | ⟨hg, hlater⟩
      · obtain ⟨p, es', w2, hrun, hk2, hs2⟩ := @Gives.value _ ih w1 none (some 0) none chr hf1 trivial
        refine ⟨node, es, w2, M.bind_ok hrun, hk1.trans hk2 hk1.size, ?_,
          hpush (hs2.first (by rw [hsame]; exact hf1))⟩
        rw [hk2.frame q hq, htext1]
      -- the property's node is refused
      have hvalue := @Agree.value _ (agree fuel) w1 none (some 0) none chr hg trivial
      cases ho : Reader.value fuel chr w1.toSrc with
      | timeout | fail =>
        rw [ho] at hlater
        exact absurd (hlater { w1 with
          mallocs := w1.mallocs + (Reader.valueRequests fuel chr w1.toSrc).length } rfl rfl) not_refuses_nil
      | ok p s' =>
        obtain ⟨J, e⟩ := p
        have hreport := value_reported ho
        rw [ho] at hvalue hlater
        obtain ⟨t, w2, hrun, hm, -, hsp⟩ := hvalue
        rw [← hm.src] at hreport
        rcases (hlater w2 hm.oracle hsp.mallocs).cases with ⟨-, hno⟩ | ⟨-, hlabel⟩
        · have hframe : ∀ x < w1.heap.size, w2.heap.get? x = w1.heap.get? x := fun x hx => hm.grown.frame x hx id
          have hk2 : Kept w1.heap.size w1 { w2 with mallocs := w2.mallocs + 1 } :=
            ⟨hm.grown.size, hframe, hm.oracle, hm.stdout⟩
          have hs2 : Hushed w2 { w2 with mallocs := w2.mallocs + 1 } [.asks .property, .asks .label] := by
            unfold Hushed
            rw [silent, hno]
            exact (and_iff_left rfl).symm
          refine ⟨node, es, { w2 with mallocs := w2.mallocs + 1 }, ?_, hk1.trans hk2 hk1.size,
            (hframe q hq).trans htext1, hpush (hs2.later (by rw [hsame]; exact hg) hm.oracle
              (by rw [hsame]; exact hsp.mallocs) hreport)⟩
          have hbuild : buildProperty (Parent.ptr c) (some t.addr) (some q) w2 =
              .ok ((none, some q), { w2 with mallocs := w2.mallocs + 1 }) := by
            unfold buildProperty
            rw [M.bind_ok (create_fail hno _ _)]
            rfl
          change jParser fuel none none chr (some 0) w1 = _ at hrun
          rw [M.bind_ok hrun]
          dsimp only
          rw [if_pos rfl, M.bind_ok hbuild]
          rfl
        · refine absurd (hlabel { w2 with mallocs := w2.mallocs + 1 } rfl rfl) (not_refuses fun r hr => ?_)
          rw [List.mem_singleton.1 hr]
          rfl

end Step

/-- **The parser gives up** where a request is refused that it heeds. -/
theorem gives (fuel : Nat) : Gives fuel := by
  induction fuel with
  | zero => exact gives_zero
  | succ fuel ih =>
    exact {
      value := value_gives ih
      collection := collection_gives ih
      items := items_gives ih
      item := item_gives ih
      member := member_gives ih
      property := property_gives ih
      afterLabel := afterLabel_gives ih }

theorem parseFile_refused (fuel : Nat) (hf : w.Refuses (Reader.valueRequests fuel 0 w.toSrc)) :
    ∃ w', jdParseFile fuel w = .ok ((false, none), w') ∧ Kept w.heap.size w w' ∧
      Hushed w w' (Reader.valueEvents fuel 0 w.toSrc) := by
  obtain ⟨p, es, w', hrun, hk, hs⟩ := @Gives.value _ (gives fuel) w none none none 0 hf trivial
  refine ⟨w', ?_, hk, hs⟩
  unfold jdParseFile
  exact M.bind_ok hrun

end JsonDom
