import JsonDom.Doc.RoundTrip
import JsonDom.Proof.Frame

/-!
# A failed member and its parent

Where `JParser`, `parse_collection` or `Object_ReadMember` fails, the child list of the parent is meant to
be what it was, and where it returns true there is one more child. Whichever allocations fail, this holds
of `parse_collection`. It fails in two places: `JParser` returns true without a node where the node of a
scalar is refused, and `Object_ReadMember` destroys the property it has linked to the parent where the
node of the label is refused (`undisturbed_iff`).
-/

namespace JsonDom

open Lib OTree M.Le

variable {w w' : World} {c : Option Parent} {fuel : Nat}

/-! ## Every function -/

/-- What `parse_collection` leaves, and what it returns. -/
def Formed (h h' : Store Cell) (c : Option Parent) (ok : Bool) (p : Ptr) : Prop :=
  if ok then ∃ t, p = some t.addr ∧ Grown h h' c t else Spared h h'

/-- What `Object_ReadMember` leaves for the parent `c`, and what it returns. -/
inductive MemberLeft (h h' : Store Cell) (c : Parent) : Bool → Prop
  | failed : Spared h h' → MemberLeft h h' c false
  | dangling {b : Addr} : Dangling h h' c b → MemberLeft h h' c false
  | lost : Spared h h' → MemberLeft h h' c true
  | made {t : OTree} : Grown h h' (some c) t → MemberLeft h h' c true

/-- How the loop of `parse_collection` leaves the collection at `a`, new since `h`. -/
inductive LoopLeaves (h h' : Store Cell) (a : Addr) : LoopExit → Prop
  | whole {exit : LoopExit} {ts : List OTree} : Grown h h' none (.node a ts) → LoopLeaves h h' a exit
  | dangling {h1 : Store Cell} {ts : List OTree} {b : Addr} : Grown h h1 none (.node a ts) →
      Dangling h1 h' (.detached a ts) b → LoopLeaves h h' a .earlyExit

/-- What the functions of the parser leave with this much fuel. -/
structure Sparing (fuel : Nat) : Prop where
  value {w w' : World} {c : Option Parent} {node p : Ptr} {chr : UInt8} {es es' : Option UInt8} {ok : Bool} :
    Stands w.heap c → jParser fuel (Parent.ptr c) node chr es w = .ok ((ok, p, es'), w') →
      Left w.heap w'.heap c ok p
  collection {w w' : World} {c : Option Parent} {tools : CollectionTools} {node p : Ptr} {ok : Bool} :
    Stands w.heap c → parseCollection fuel (Parent.ptr c) tools node w = .ok ((ok, p), w') →
      Formed w.heap w'.heap c ok p
  items {h : Store Cell} {w w' : World} {tools : CollectionTools} {a : Addr} {ts : List OTree} {needs : Bool}
    {exit : LoopExit} : Grown h w.heap none (.node a ts) →
      parseCollection.loop fuel tools (some a) needs w = .ok (exit, w') → LoopLeaves h w'.heap a exit
  item {h : Store Cell} {w w' : World} {tools : CollectionTools} {a : Addr} {ts : List OTree} {chr : UInt8}
    {exit : LoopExit} : Grown h w.heap none (.node a ts) →
      parseCollection.member fuel tools (some a) chr w = .ok (exit, w') → LoopLeaves h w'.heap a exit
  member {w w' : World} {c : Parent} {tools : CollectionTools} {node p : Ptr} {chr : UInt8}
    {es es' : Option UInt8} {ok : Bool} : Stands w.heap (some c) →
      readMember fuel tools (some c.addr) node chr es w = .ok ((ok, p, es'), w') →
        MemberLeft w.heap w'.heap c ok
  property {w w' : World} {c : Parent} {node p : Ptr} {chr : UInt8} {es es' : Option UInt8} {ok : Bool} :
    Stands w.heap (some c) → objectReadMember fuel (some c.addr) node chr es w = .ok ((ok, p, es'), w') →
      MemberLeft w.heap w'.heap c ok

/-! ## One step of the fuel -/

section Step

variable (ih : Sparing fuel)
include ih

theorem value_leaves {node p : Ptr} {chr : UInt8} {es es' : Option UInt8} {ok : Bool}
    (hc : Stands w.heap c) (h : jParser (fuel + 1) (Parent.ptr c) node chr es w = .ok ((ok, p, es'), w')) :
    Left w.heap w'.heap c ok p := by
  unfold jParser at h
  obtain ⟨r, w1, hskip, h⟩ := M.bind_eq_ok h
  obtain ⟨s, rfl⟩ := skipSpace_left hskip
  cases r with
  | none =>
    cases h
    exact .failed (.refl _)
  | some b =>
    dsimp only at h
    have coll : ∀ {tools : CollectionTools}, (do
        let p ← parseCollection fuel (Parent.ptr c) tools none
        if p.1 then pure (true, p.2, es) else pure (false, node, es) : M (Bool × Ptr × Option UInt8))
          { w with toSrc := s } = .ok ((ok, p, es'), w') → Left w.heap w'.heap c ok p := by
      intro tools h
      obtain ⟨⟨ok1, newNode⟩, w1, hrun, h⟩ := M.bind_eq_ok h
      have hformed := ih.collection (w := { w with toSrc := s }) hc hrun
      cases ok1 with
      | true =>
        cases h
        obtain ⟨t, rfl, hg⟩ := hformed
        exact .made hg
      | false =>
        cases h
        exact .failed hformed
    split at h
    · exact coll h
    split at h
    · exact coll h
    · exact parseScalar_left (w := { w with toSrc := s }) hc h

theorem collection_leaves {tools : CollectionTools} {node p : Ptr} {ok : Bool} (hc : Stands w.heap c)
    (h : parseCollection (fuel + 1) (Parent.ptr c) tools node w = .ok ((ok, p), w')) :
    Formed w.heap w'.heap c ok p := by
  unfold parseCollection at h
  cases ho : w.oracle w.mallocs with
  | false =>
    rw [M.bind_ok (create_fail ho _ _), if_neg (by simp), M.bind_ok (report_run _ _)] at h
    cases h
    exact .refl _
  | true =>
    obtain ⟨w1, hw1⟩ : ∃ w1, w1 =
      { w with heap := w.heap.alloc (.node newNode), mallocs := w.mallocs + 1 } := ⟨_, rfl⟩
    have hheap1 : w1.heap = w.heap.alloc (.node newNode) := by rw [hw1]
    have hn1 : w1.heap.get? w.heap.size = some (.node newNode) := by
      rw [hheap1]
      exact Store.get?_alloc_self _ _
    obtain ⟨type, w2, hset, -, hl, -⟩ : ∃ type w2, tools.coerceType (some w.heap.size) w1 = .ok (true, w2) ∧
        SameBut w1 w2 ∧ Leaf w.heap.size w1.heap w2.heap w.heap.size type none ∧ Spent w1 w2 [] 1 1 := by
      cases tools with
      | arrayTools =>
        obtain ⟨w2, hset⟩ := @leaf_plain w1 w.heap.size w.heap.size hn1 .jdArray
        exact ⟨_, w2, hset⟩
      | objectTools =>
        obtain ⟨w2, hset⟩ := @leaf_plain w1 w.heap.size w.heap.size hn1 .jdObject
        exact ⟨_, w2, hset⟩
    rw [M.bind_ok (create_run ho), if_pos (by rfl), ← hw1, M.bind_ok hset, if_pos rfl] at h
    have hg2 := hl.grown (Nat.le_refl _) (fun _ _ => rfl) hheap1
    obtain ⟨exit, w3, hloop, h⟩ := M.bind_eq_ok h
    have hends := ih.items hg2 hloop
    cases hends with
    | dangling hg3 hd =>
      obtain ⟨_, w4, hdestroy, -⟩ := M.bind_eq_ok h
      exact absurd hdestroy (destroy_dangling hg3 hd)
    | whole hg3 =>
      cases exit with
      | earlyExit =>
        obtain ⟨_, w4, hdestroy, h⟩ := M.bind_eq_ok h
        have hs := discard_left hg3 hdestroy
        cases h
        exact hs
      | done retval =>
        cases retval with
        | true =>
          obtain ⟨h', hrun, hg4, -⟩ := attach hc hg3
          have hend := (hrun fun _ => do
            reportParseError "unterminated collection"
            pure (true, some w.heap.size)).symm.trans h
          cases hend
          exact ⟨_, rfl, hg4⟩
        | false =>
          dsimp only at h
          rw [M.bind_ok (report_run _ _)] at h
          obtain ⟨_, w4, hdestroy, h⟩ := M.bind_eq_ok h
          have hs := discard_left
            (w := { w3 with toSrc := w3.toSrc.report "unterminated collection" }) hg3 hdestroy
          cases h
          exact hs

theorem items_leaves {h0 : Store Cell} {tools : CollectionTools} {a : Addr} {ts : List OTree} {needs : Bool}
    {exit : LoopExit} (hg : Grown h0 w.heap none (.node a ts))
    (h : parseCollection.loop (fuel + 1) tools (some a) needs w = .ok (exit, w')) :
    LoopLeaves h0 w'.heap a exit := by
  obtain ⟨r, s, hr⟩ : ∃ r s, w.toSrc.read = (r, s) := ⟨_, _, rfl⟩
  obtain ⟨w1, hw1⟩ : ∃ w1, w1 = { w with toSrc := s } := ⟨_, rfl⟩
  have hg1 : Grown h0 w1.heap none (.node a ts) := by rw [hw1]; exact hg
  cases r with
  | zero | minusOne =>
    unfold parseCollection.loop at h
    rw [M.bind_ok (read_run w), hr] at h
    cases h
    exact .whole hg
  | one chr =>
    obtain ⟨k, rfl⟩ : ∃ k : Kind, k.tools = tools := by
      cases tools
      · exact ⟨.arr, rfl⟩
      · exact ⟨.obj, rfl⟩
    obtain ⟨n, hn, -⟩ := linked_root hg.hangs
    change w.heap.get? a = some (.node n) at hn
    rw [loop_one hr hn, ← hw1] at h
    cases hact : loopAct k n.firstChild.isSome needs chr <;> rw [hact] at h
    case again flag => exact ih.items hg1 h
    case member => exact ih.item hg1 h
    case done =>
      cases h
      exact .whole hg1
    case fail c =>
      dsimp only [Act.elim] at h
      rw [M.bind_ok (report_run _ _)] at h
      cases h
      exact .whole hg1

theorem item_leaves {h0 : Store Cell} {tools : CollectionTools} {a : Addr} {ts : List OTree} {chr : UInt8}
    {exit : LoopExit} (hg : Grown h0 w.heap none (.node a ts))
    (h : parseCollection.member (fuel + 1) tools (some a) chr w = .ok (exit, w')) :
    LoopLeaves h0 w'.heap a exit := by
  unfold parseCollection.member at h
  obtain ⟨⟨ok, p, es⟩, w1, hread, h⟩ := M.bind_eq_ok h
  have hleft := ih.member (c := .detached a ts) ⟨hg.hangs, hg.owned.nodup⟩ hread
  dsimp only at h
  cases ok with
  | false =>
    cases h
    cases hleft with
    | failed hs => exact .whole (hg.kept hs.size hs.frame)
    | dangling hd => exact .dangling hg hd
  | true =>
    obtain ⟨ts1, hg1⟩ : ∃ ts1, Grown h0 w1.heap none (.node a ts1) := by
      cases hleft with
      | lost hs => exact ⟨ts, hg.kept hs.size hs.frame⟩
      | made hg1 => exact ⟨_, hg.push hg1⟩
    rw [if_pos rfl] at h
    split at h
    · exact ih.items hg1 h
    split at h
    · cases h
      exact .whole hg1
    split at h
    · exact ih.items hg1 h
    · rw [M.bind_ok (report_run _ w1)] at h
      cases h
      exact .whole hg1

theorem member_leaves {c : Parent} {tools : CollectionTools} {node p : Ptr} {chr : UInt8}
    {es es' : Option UInt8} {ok : Bool} (hc : Stands w.heap (some c))
    (h : readMember (fuel + 1) tools (some c.addr) node chr es w = .ok ((ok, p, es'), w')) :
    MemberLeft w.heap w'.heap c ok := by
  cases tools with
  | arrayTools =>
    have hleft := ih.value (c := some c) hc h
    cases hleft with
    | failed hs => exact .failed hs
    | lost hs => exact .lost hs
    | made hg => exact .made hg
  | objectTools => exact ih.property hc h

end Step

/-! ## What is refused -/

/-- `JParser` comes to a scalar and is refused the node of it. -/
def ScalarRefused (w : World) (chr : UInt8) : Prop :=
  ∃ fuel b w1 handle w2, skipSpace fuel (if chr ≠ 0 then chr else ch ' ') w = .ok (some b, w1) ∧
    b ≠ ch '[' ∧ b ≠ ch '{' ∧ jReadString (readStringInit b) w1 = .ok ((true, handle), w2) ∧
    w2.oracle w2.mallocs = false

/-- `Object_ReadMember` comes to the end of the value, is given the node of the property and refused that
of the label. -/
def LabelRefused (w : World) (chr : UInt8) : Prop :=
  ∃ handle w1 b s fuel v e w2, chr = ch '"' ∧
    jReadString (readStringInit chr) w = .ok ((true, handle), w1) ∧
    w1.toSrc.valueStart false = some (b, s) ∧
    jParser fuel none none b (some 0) { w1 with toSrc := s } = .ok ((true, v, e), w2) ∧
    w2.oracle w2.mallocs = true ∧ w2.oracle (w2.mallocs + 1) = false

theorem labelRefused_iff {w1 w2 : World} {handle : RSHandle} {b : UInt8} {s : Src} {ok : Bool} {v : Ptr}
    {e : Option UInt8} (hread : jReadString (readStringInit (ch '"')) w = .ok ((true, handle), w1))
    (hstart : w1.toSrc.valueStart false = some (b, s))
    (hvalue : jParser fuel none none b (some 0) { w1 with toSrc := s } = .ok ((ok, v, e), w2)) :
    LabelRefused w (ch '"') ↔
      ok = true ∧ w2.oracle w2.mallocs = true ∧ w2.oracle (w2.mallocs + 1) = false := by
  constructor
  · rintro ⟨handle', w1', b', s', fuel', v', e', w2', -, hread', hstart', hvalue', h1, h2⟩
    cases hread.symm.trans hread'
    cases hstart.symm.trans hstart'
    cases unique (f := fun n => jParser n none none b (some 0)) (fun n => (more_fuel n).value _ _ _ _) hvalue
      hvalue'
    exact ⟨rfl, h1, h2⟩
  · rintro ⟨rfl, h1, h2⟩
    exact ⟨handle, w1, b, s, fuel, v, e, w2, rfl, hread, hstart, hvalue, h1, h2⟩

/-- A scalar is lost where its node is refused, and only there. -/
theorem parseScalar_lost {chr : UInt8} {es es' : Option UInt8} {ok : Bool} {p : Ptr}
    (h : parseScalar (Parent.ptr c) chr es w = .ok ((ok, p, es'), w')) :
    (ok = true ∧ p = none) ↔ ∃ handle w1, jReadString (readStringInit chr) w = .ok ((true, handle), w1) ∧
      w1.oracle w1.mallocs = false := by
  unfold parseScalar at h
  obtain ⟨⟨ok1, handle⟩, w1, hread, h⟩ := M.bind_eq_ok h
  dsimp only at h
  have hiff : (∃ handle w1, jReadString (readStringInit chr) w = .ok ((true, handle), w1) ∧
      w1.oracle w1.mallocs = false) ↔ ok1 = true ∧ w1.oracle w1.mallocs = false := by
    constructor
    · rintro ⟨_, _, hread', ho⟩
      cases hread.symm.trans hread'
      exact ⟨rfl, ho⟩
    · rintro ⟨rfl, ho⟩
      exact ⟨handle, w1, hread, ho⟩
  rw [hiff]
  cases ok1 with
  | false =>
    obtain ⟨_, w2, -, h⟩ := M.bind_eq_ok h
    cases h
    simp
  | true =>
    rw [if_pos rfl] at h
    cases ho : w1.oracle w1.mallocs with
    | false =>
      rw [M.bind_ok (create_fail ho none none), if_neg (by simp)] at h
      cases h
      simp
    | true =>
      rw [M.bind_ok (create_run ho), if_pos (by rfl)] at h
      have finish : ∀ {retval : Bool} {w2 : World} {tempNode : Addr}, (if retval then do
            if (Parent.ptr c).isSome then jdNodeAdopt (some tempNode) (Parent.ptr c) none
            pure (true, some tempNode, es.map fun _ => handle.endSignal)
          else do
            let _ ← jdNodeDestroy (some tempNode)
            pure (false, none, es.map fun _ => handle.endSignal) : M (Bool × Ptr × Option UInt8)) w2 =
            .ok ((ok, p, es'), w') → ¬ (ok = true ∧ p = none) := by
        intro retval w2 tempNode h
        cases retval with
        | true =>
          rw [if_pos rfl] at h
          split at h
          · obtain ⟨_, w3, -, h⟩ := M.bind_eq_ok h
            cases h
            simp
          · cases h
            simp
        | false =>
          rw [if_neg Bool.false_ne_true] at h
          obtain ⟨_, w3, -, h⟩ := M.bind_eq_ok h
          cases h
          simp
      have hlost : ¬ (ok = true ∧ p = none) := by
        split at h
        · obtain ⟨_, w2, -, h⟩ := M.bind_eq_ok h
          rw [M.bind_ok (M.pure_run _ w2)] at h
          exact finish h
        · obtain ⟨_, w2, -, h⟩ := M.bind_eq_ok h
          exact finish h
      simpa using hlost

/-- What `Object_ReadMember` leaves, and when: only where the node of the label is refused the parent is
left with a freed child. -/
inductive PropertyEnds (w w' : World) (c : Parent) (chr : UInt8) : Bool → Prop
  | failed : Spared w.heap w'.heap → ¬ LabelRefused w chr → PropertyEnds w w' c chr false
  | dangling {b : Addr} : Dangling w.heap w'.heap c b → LabelRefused w chr → PropertyEnds w w' c chr false
  | made {t : OTree} : Grown w.heap w'.heap (some c) t → ¬ LabelRefused w chr → PropertyEnds w w' c chr true

theorem property_ends {c : Parent} {node p : Ptr} {chr : UInt8} {es es' : Option UInt8} {ok : Bool}
    (hvalue : ∀ {w w' : World} {node p : Ptr} {chr : UInt8} {es es' : Option UInt8} {ok : Bool},
      jParser fuel none node chr es w = .ok ((ok, p, es'), w') → Left w.heap w'.heap none ok p)
    (hc : Stands w.heap (some c))
    (h : objectReadMember (fuel + 1) (some c.addr) node chr es w = .ok ((ok, p, es'), w')) :
    PropertyEnds w w' c chr ok := by
  unfold objectReadMember at h
  by_cases hq : chr = ch '"'
  · subst hq
    rw [if_neg (not_not.2 rfl)] at h
    obtain ⟨⟨ok1, handle⟩, w1, hread, h⟩ := M.bind_eq_ok h
    obtain ⟨hk1, hstr⟩ := readString_left hread
    dsimp only at h
    cases ok1 with
    | false =>
      rw [if_neg Bool.false_ne_true] at h hstr
      unfold readStringDestroy at h
      rw [hstr, M.bind_ok (M.bind_ok (free_none w1))] at h
      cases h
      refine .failed hk1.spared ?_
      rintro ⟨_, _, _, _, _, _, _, _, -, hread', -⟩
      cases hread.symm.trans hread'
    | true =>
      rw [if_pos rfl] at h hstr
      obtain ⟨q, label, hstr, hlo, htext⟩ := hstr
      rw [hstr] at h
      obtain ⟨⟨result, l⟩, w3, hloop, h⟩ := M.bind_eq_ok h
      -- in the end the label is released, unless the property has it
      obtain ⟨hresult, hfree⟩ : result = (ok, p, es') ∧ free l w3 = .ok ((), w') := by
        unfold readStringDestroy at h
        obtain ⟨_, w4, hdestroy, h⟩ := M.bind_eq_ok h
        obtain ⟨_, w5, hfree, hend⟩ := M.bind_eq_ok hdestroy
        cases hend
        cases h
        exact ⟨rfl, hfree⟩
      have released : l = some q → w' = { w3 with heap := w3.heap.release q } := by
        rintro rfl
        rcases free_left hfree with ⟨-, hnone⟩ | ⟨a, ha, hw'⟩
        · cases hnone
        · obtain rfl := Option.some.inj ha
          exact hw'
      subst hresult
      rcases memberLoop_cases hloop with
        ⟨hnone, hr, hl, s, hw3⟩ | ⟨n, b, s, ok2, v, e, w2, hle, hstart, hrun, -, hrest⟩
      · cases hr
        rw [released hl, hw3]
        refine .failed (hk1.spared.release hlo) ?_
        rintro ⟨_, _, _, _, _, _, _, _, -, hread', hstart, -⟩
        cases hread.symm.trans hread'
        cases hnone.symm.trans hstart
      have hval := (jParser_mono hle none none b (some 0)).ok hrun
      · have hleft := hvalue hval
        have hiff := labelRefused_iff hread hstart hval
        rcases hrest with ⟨rfl, hr, hl, rfl⟩ | ⟨rfl, prop, hbuild, hr, -⟩
        · obtain rfl : ok = false := hr
          rw [released hl]
          refine .failed ?_ fun hlabel => by cases (hiff.1 hlabel).1
          cases hleft with
          | failed hs => exact (hk1.spared.trans hs).release hlo
        · have hprop := buildProperty_left hc hk1.spared hleft hlo htext hbuild
          have hr : ok = prop.isSome := hr
          cases hprop with
          | denied ho hs =>
            obtain rfl : ok = false := hr
            rw [released rfl]
            refine .failed (hs.release hlo) fun hlabel => ?_
            cases ho.symm.trans (hiff.1 hlabel).2.1
          | unlabelled ho ho' hd =>
            obtain rfl : ok = false := hr
            rw [released rfl]
            exact .dangling (hd.release hc hlo) (hiff.2 ⟨rfl, ho, ho'⟩)
          | built ho' hg =>
            obtain rfl : ok = true := hr
            cases hfree
            refine .made hg fun hlabel => ?_
            cases ho'.symm.trans (hiff.1 hlabel).2.2
  · rw [if_pos hq, M.bind_ok (report_run _ w)] at h
    cases h
    refine .failed (.refl _) ?_
    rintro ⟨_, _, _, _, _, _, _, _, hchr, -⟩
    exact hq hchr

/-- **What a call leaves, whichever allocations fail.** -/
theorem sparing (fuel : Nat) : Sparing fuel := by
  induction fuel with
  | zero =>
    constructor
    case member =>
      intro w w' c tools node p chr es es' ok hc h
      cases tools <;> cases h
    all_goals
      intros
      contradiction
  | succ fuel ih =>
    exact {
      value := value_leaves ih
      collection := collection_leaves ih
      items := items_leaves ih
      item := item_leaves ih
      member := member_leaves ih
      property := fun hc h => by
        cases property_ends (fun hrun => ih.value (c := none) trivial hrun) hc h with
        | failed hs => exact .failed hs
        | dangling hd => exact .dangling hd
        | made hg => exact .made hg }

/-! ## The child list -/

/-- The child list of `c` is what it was, where the call failed, and has one more child in the end, where
it returned true; none of its nodes is freed. -/
def Undisturbed (w w' : World) (c : Parent) : Bool → Prop
  | false => Stands w'.heap (some c) ∧ ∀ x ∈ (c.tree c.kids).addrs, w'.heap.get? x = w.heap.get? x
  | true => ∃ t : OTree, w.heap.size ≤ t.addr ∧ Stands w'.heap (some { c with kids := c.kids ++ [t] }) ∧
      Stays w.heap w'.heap

theorem Spared.undisturbed {c : Parent} (hc : Stands w.heap (some c)) (hs : Spared w.heap w'.heap) :
    Undisturbed w w' c false :=
  ⟨hc.frame hs.frame, fun x hx => hs.frame x (linked_lt hc.1 x hx)⟩

theorem Grown.undisturbed {c : Parent} {t : OTree} (hc : Stands w.heap (some c))
    (hg : Grown w.heap w'.heap (some c) t) : Undisturbed w w' c true := by
  refine ⟨t, hg.fresh _ (mem_blocks_left t.addr_mem), ⟨hg.hangs, ?_⟩, hg.stays⟩
  have haddrs : (c.tree (c.kids ++ [t])).addrs = (c.tree c.kids).addrs ++ t.addrs := by
    simp [Parent.tree]
  change (c.tree (c.kids ++ [t])).addrs.Nodup
  rw [haddrs]
  refine List.nodup_append.2 ⟨hc.2, hg.owned.nodup, fun x hx y hy he => ?_⟩
  have hxlt := linked_lt hc.1 x hx
  exact absurd (hg.fresh y (mem_blocks_left hy)) (Nat.not_le_of_lt (he ▸ hxlt))

theorem Spared.not_undisturbed {c : Parent} (hc : Stands w.heap (some c)) (hs : Spared w.heap w'.heap) :
    ¬ Undisturbed w w' c true := by
  rintro ⟨t, hnew, hc', -⟩
  obtain ⟨n, hn, -, -, -, -, hlast⟩ := linked_root (hc.frame hs.frame).1
  obtain ⟨n', hn', -, -, -, -, hlast'⟩ := linked_root hc'.1
  cases hn.symm.trans hn'
  have he : lastOf c.kids none = some t.addr := by
    have h := hlast.symm.trans hlast'
    simpa [Parent.tree, kids] using h
  have hlt := linked_lt hc.1 t.addr (by
    rw [Parent.tree, addrs_node]
    exact List.mem_cons_of_mem _ (lastOf_mem he))
  exact absurd hnew (Nat.not_le_of_lt hlt)

theorem Dangling.not_undisturbed {c : Parent} {b : Addr} (hc : Stands w.heap (some c))
    (hd : Dangling w.heap w'.heap c b) : ¬ Undisturbed w w' c false := by
  rintro ⟨hc', -⟩
  obtain ⟨n, hn, -, -, -, -, hlast⟩ := linked_root hc'.1
  change w'.heap.get? c.addr = some (.node n) at hn
  have hlinks := hd.root
  rw [links_of hn, Option.some.injEq] at hlinks
  have he : lastOf c.kids none = some b := hlast.symm.trans (congrArg Links.last hlinks)
  have hlt := linked_lt hc.1 b (by
    rw [Parent.tree, addrs_node]
    exact List.mem_cons_of_mem _ (lastOf_mem he))
  exact absurd hd.new (Nat.not_le_of_lt hlt)

theorem jParser_undisturbed {c : Parent} {node p : Ptr} {chr : UInt8} {es es' : Option UInt8} {ok : Bool}
    (hc : Stands w.heap (some c)) (h : jParser fuel (some c.addr) node chr es w = .ok ((ok, p, es'), w')) :
    Undisturbed w w' c ok ↔ ¬ ScalarRefused w chr := by
  have hleft := (sparing fuel).value (c := some c) hc h
  cases fuel with
  | zero => cases h
  | succ fuel =>
    unfold jParser at h
    obtain ⟨r, w1, hskip, h⟩ := M.bind_eq_ok h
    -- what `ScalarRefused` says of this run
    have hrefused : ScalarRefused w chr ↔ ∃ b, r = some b ∧ b ≠ ch '[' ∧ b ≠ ch '{' ∧
        ∃ handle w2, jReadString (readStringInit b) w1 = .ok ((true, handle), w2) ∧
          w2.oracle w2.mallocs = false := by
      constructor
      · rintro ⟨n, b, w1', handle, w2, hskip', h1, h2, hread, ho⟩
        cases unique (f := fun n => skipSpace n (if chr ≠ 0 then chr else ch ' '))
          (fun n => skipSpace_mono n _) hskip hskip'
        exact ⟨b, rfl, h1, h2, handle, w2, hread, ho⟩
      · rintro ⟨b, rfl, h1, h2, handle, w2, hread, ho⟩
        exact ⟨fuel, b, w1, handle, w2, hskip, h1, h2, hread, ho⟩
    have hlost : (ok = true ∧ p = none) ↔ ScalarRefused w chr := by
      rw [hrefused]
      cases r with
      | none =>
        cases h
        simp
      | some b =>
        obtain ⟨s, hs⟩ := skipSpace_left hskip
        have hc1 : Stands w1.heap (some c) := by
          rw [hs]
          exact hc
        dsimp only at h
        -- a collection that was read has a node
        have coll : ∀ {tools : CollectionTools}, (do
            let p ← parseCollection fuel (some c.addr) tools none
            if p.1 then pure (true, p.2, es) else pure (false, node, es) : M (Bool × Ptr × Option UInt8)) w1 =
              .ok ((ok, p, es'), w') → ¬ (ok = true ∧ p = none) := by
          intro tools h
          obtain ⟨⟨ok1, newNode⟩, w2, hrun, h⟩ := M.bind_eq_ok h
          have hformed := (sparing fuel).collection (c := some c) hc1 hrun
          cases ok1 with
          | true =>
            obtain ⟨t, rfl, -⟩ := hformed
            cases h
            simp
          | false =>
            cases h
            simp
        by_cases h1 : b = ch '['
        · rw [if_pos h1] at h
          simp [coll h, h1]
        by_cases h2 : b = ch '{'
        · rw [if_neg h1, if_pos h2] at h
          simp [coll h, h2]
        · rw [if_neg h1, if_neg h2] at h
          rw [parseScalar_lost (c := some c) h]
          simp [h1, h2]
    rw [← hlost]
    cases hleft with
    | failed hs => simpa using hs.undisturbed hc
    | lost hs => simpa using hs.not_undisturbed hc
    | made hg => simpa using hg.undisturbed hc

/-- **A failed member leaves the parent alone, and a member that is read becomes its last child**, unless
the node of a scalar or that of a label is refused. -/
theorem undisturbed_iff {c : Parent} (hc : Stands w.heap (some c)) (fuel : Nat) (node : Ptr) (chr : UInt8)
    (es : Option UInt8) :
    (∀ ok p es' w', jParser fuel (some c.addr) node chr es w = .ok ((ok, p, es'), w') →
      (Undisturbed w w' c ok ↔ ¬ ScalarRefused w chr)) ∧
    (∀ tools ok p w', parseCollection fuel (some c.addr) tools node w = .ok ((ok, p), w') →
      Undisturbed w w' c ok) ∧
    ∀ ok p es' w', objectReadMember fuel (some c.addr) node chr es w = .ok ((ok, p, es'), w') →
      (Undisturbed w w' c ok ↔ ¬ LabelRefused w chr) := by
  refine ⟨fun ok p es' w' h => jParser_undisturbed hc h, fun tools ok p w' h => ?_, fun ok p es' w' h => ?_⟩
  · have hformed := (sparing fuel).collection (c := some c) hc h
    cases ok with
    | true =>
      obtain ⟨t, -, hg⟩ := hformed
      exact hg.undisturbed hc
    | false => exact Spared.undisturbed hc hformed
  · cases fuel with
    | zero => cases h
    | succ fuel =>
      cases property_ends (fun hrun => (sparing fuel).value (c := none) trivial hrun) hc h with
      | failed hs hl => exact iff_of_true (hs.undisturbed hc) hl
      | dangling hd hl => exact iff_of_false (hd.not_undisturbed hc) (not_not.2 hl)
      | made hg hl => exact iff_of_true (hg.undisturbed hc) hl

/-- The tree of `{"a":[1]}` in memory, and the rest of a file. -/
def sampleWorld (rest : Bytes) : World := { World.start rest .eof with heap := sampleHeap }

def sampleArray : Parent := { addr := 3, up := some 1, prev := some 2, next := none, kids := [.node 4 []] }

theorem sampleArray_stands (rest : Bytes) : Stands (sampleWorld rest).heap (some sampleArray) := by
  refine ⟨?_, by decide⟩
  simp only [Parent.tree, sampleArray, linked_node, chain_cons, chain_nil, and_true]
  exact ⟨rfl, rfl⟩

/-- An array that breaks off behind `[1`, and a member that breaks off behind its label: the array and the
object that they are read into stay as they are. -/
theorem undisturbed_sample :
    (∃ p es' w', jParser 20 (some 3) none (ch '[') none (sampleWorld (cs "1")) = .ok ((false, p, es'), w') ∧
      Undisturbed (sampleWorld (cs "1")) w' sampleArray false) ∧
    (∃ p w', parseCollection 20 (some 3) .arrayTools none (sampleWorld (cs "1")) = .ok ((false, p), w') ∧
      Undisturbed (sampleWorld (cs "1")) w' sampleArray false) ∧
    ∃ p es' w', objectReadMember 20 (some 0) none (ch '"') (some 0) (sampleWorld (cs "b\" :")) =
        .ok ((false, p, es'), w') ∧
      Undisturbed (sampleWorld (cs "b\" :")) w' (.detached 0 [.node 1 [.node 2 [], .node 3 [.node 4 []]]])
        false := by
  have harray := sampleArray_stands (cs "1")
  have hobject : Stands (sampleWorld (cs "b\" :")).heap
      (some (.detached 0 [.node 1 [.node 2 [], .node 3 [.node 4 []]]])) := ⟨sample_linked, by decide⟩
  refine ⟨?_, ?_, ?_⟩
  · obtain ⟨⟨ok, p, es'⟩, w', hrun, hok⟩ := @endsIn_run _
      (jParser 20 (some 3) none (ch '[') none (sampleWorld (cs "1"))) (fun r _ => !r.1) (by decide +kernel)
    obtain rfl : ok = false := by simpa using hok
    refine ⟨p, es', w', hrun, ((undisturbed_iff harray 20 none (ch '[') none).1 _ _ _ _ hrun).2 ?_⟩
    rintro ⟨fuel, b, w1, handle, w2, hskip, hb, -⟩
    cases fuel with
    | zero => cases hskip
    | succ fuel =>
      cases hskip
      exact hb rfl
  · obtain ⟨⟨ok, p⟩, w', hrun, hok⟩ := @endsIn_run _
      (parseCollection 20 (some 3) .arrayTools none (sampleWorld (cs "1"))) (fun r _ => !r.1) (by decide +kernel)
    obtain rfl : ok = false := by simpa using hok
    exact ⟨p, w', hrun, (undisturbed_iff harray 20 none (ch '[') none).2.1 _ _ _ _ hrun⟩
  · obtain ⟨⟨ok, p, es'⟩, w', hrun, hok⟩ := @endsIn_run _
      (objectReadMember 20 (some 0) none (ch '"') (some 0) (sampleWorld (cs "b\" :"))) (fun r _ => !r.1)
      (by decide +kernel)
    obtain rfl : ok = false := by simpa using hok
    refine ⟨p, es', w', hrun, ((undisturbed_iff hobject 20 none (ch '"') (some 0)).2.2 _ _ _ _ hrun).2 ?_⟩
    rintro ⟨handle, w1, b, s, fuel, v, e, w2, -, hread, hstart, -⟩
    -- behind the label the file ends
    obtain ⟨r, w1', hread', hnone⟩ := @endsIn_run _
      (jReadString (readStringInit (ch '"')) (sampleWorld (cs "b\" :")))
      (fun _ w' => (w'.toSrc.valueStart false).isNone) (by decide +kernel)
    cases hread.symm.trans hread'
    rw [hstart] at hnone
    cases hnone

/-- An object without members at the address 0 and the rest of a file; the allocation `refused` fails. -/
def objectWorld (rest : Bytes) (refused : Nat) : World :=
  { World.start rest .eof with
    heap := Store.empty.alloc (.node { newNode with type := .jdObject }), oracle := fun k => k ≠ refused }

/-- `"a":"b"` with the node of the label refused: `Object_ReadMember` returns false and the object has a
freed child. -/
theorem label_refused : ∃ p es' w',
    objectReadMember 20 (some 0) none (ch '"') (some 0) (objectWorld (cs "a\":\"b\"") 4) =
      .ok ((false, p, es'), w') ∧
    ¬ Undisturbed (objectWorld (cs "a\":\"b\"") 4) w' (.detached 0 []) false := by
  obtain ⟨⟨ok, p, es'⟩, w', hrun, hq⟩ := @endsIn_run _
    (objectReadMember 20 (some 0) none (ch '"') (some 0) (objectWorld (cs "a\":\"b\"") 4))
    (fun r w' => !r.1 && w'.heap.get? 0 != (objectWorld (cs "a\":\"b\"") 4).heap.get? 0) (by decide +kernel)
  rw [Bool.and_eq_true] at hq
  obtain ⟨hok, hne⟩ := hq
  obtain rfl : ok = false := by simpa using hok
  refine ⟨p, es', w', hrun, fun ⟨_, hsame⟩ => ?_⟩
  exact absurd (hsame 0 (by decide)) (by simpa using hne)

end JsonDom
