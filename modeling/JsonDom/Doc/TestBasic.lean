import JsonDom.Doc.Cost
import JsonDom.Doc.WellFormed
import JsonDom.Model.TestBasic
import JsonDom.Proof.Access
import JsonDom.Proof.Print
import JsonDom.Spec.Path

/-!
# The test of one file

`display_relation` compares `jd_get_relation` with the getter at the same place of a list, and the list does
not have the order of the relations: of a root it compares the first child with the sibling in front of it. So
`test_individual_file` reports a mismatch for every document with members (`individual_file_exact`), though
both functions are right.
-/

namespace JsonDom

open Lib OTree

variable {w w' : World} {t : OTree} {J : Json} {x : Addr} {n : JdNode} {showPtr : Ptr → Bytes} {filename : Bytes}

/-- What is printed of one comparison. -/
def comparison (showPtr : Ptr → Bytes) (name : Bytes) (p q : Ptr) : Bytes :=
  cs "For \x27" ++ name ++ cs "\x27, compare jd_get_relation and matched relation function:\n" ++
    if p = q then cs "Results matched (" ++ showPtr p ++ cs ")!\n"
    else cs "Results NOT MATCHED (" ++ showPtr p ++ cs " vs " ++ showPtr q ++ cs ").\n"

theorem displayRelation_run {rel : Nat} {name : Bytes} {rfunc : Ptr → M Ptr} {r : Nat} {p q : Ptr}
    (hfunc : relationFunctions[rel]? = some (name, rfunc)) (hr : rfunc = (jdGetRelation · r))
    (hn : w.heap.get? x = some (.node n)) (hrel : rel ≤ 4) (hr4 : r ≤ 4) (hp : n.link rel = p) (hq : n.link r = q) :
    displayRelation showPtr (some x) rel w = .ok ((), { w with
      stdout := w.stdout ++ comparison showPtr name p q }) := by
  have hrun : ∀ (out : Bytes) {r : Nat} {p : Ptr}, r ≤ 4 → n.link r = p →
      jdGetRelation (some x) r { w with stdout := out } = .ok (p, { w with stdout := out }) := fun out _ _ hr hp =>
    @getRelation_run { w with stdout := out } x n hn _ hr _ hp
  unfold displayRelation comparison
  rw [hfunc, hr]
  dsimp only
  rw [M.bind_ok (printf_run _ w), M.bind_ok (hrun _ hrel hp), M.bind_ok (hrun _ hr4 hq)]
  split <;> simp only [printf_run, List.append_assoc]

/-- The comparisons of a node: the third and the fourth are of the first child and the sibling in front. -/
def comparisons (showPtr : Ptr → Bytes) (k : Links) : Bytes :=
  comparison showPtr (cs "parent") k.parent k.parent ++ comparison showPtr (cs "nextSibling") k.next k.next ++
    comparison showPtr (cs "prevSibling") k.first k.prev ++ comparison showPtr (cs "firstChild") k.prev k.first ++
    comparison showPtr (cs "lastChild") k.last k.last

theorem testGetRelations_run (hn : w.heap.get? x = some (.node n)) :
    testGetRelations showPtr (some x) w =
      .ok ((), { w with stdout := w.stdout ++ comparisons showPtr n.links }) := by
  have hrun : ∀ out, ∀ {rel r : Nat} {name : Bytes} {rfunc : Ptr → M Ptr},
      relationFunctions[rel]? = some (name, rfunc) → rfunc = (jdGetRelation · r) → rel ≤ 4 → r ≤ 4 →
      displayRelation showPtr (some x) rel { w with stdout := out } = .ok ((), { w with
        stdout := out ++ comparison showPtr name (n.link rel) (n.link r) }) := fun out _ _ _ _ hfunc hr hrel hr4 =>
    @displayRelation_run { w with stdout := out } x n showPtr _ _ _ _ _ _ hfunc hr hn hrel hr4 rfl rfl
  show (displayRelation showPtr (some x) 0 >>= fun _ => displayRelation showPtr (some x) 1 >>= fun _ =>
    displayRelation showPtr (some x) 2 >>= fun _ => displayRelation showPtr (some x) 3 >>= fun _ =>
    displayRelation showPtr (some x) 4 >>= fun _ => pure ()) w = _
  rw [M.bind_ok (hrun w.stdout rfl parent_eq (by decide) (by decide)),
    M.bind_ok (hrun _ rfl nextSibling_eq (by decide) (by decide)),
    M.bind_ok (hrun _ rfl prevSibling_eq (by decide) (by decide)),
    M.bind_ok (hrun _ rfl firstChild_eq (by decide) (by decide)),
    M.bind_ok (hrun _ rfl lastChild_eq (by decide) (by decide))]
  simp only [comparisons, List.append_assoc]
  rfl

/-! ## A file -/

/-- With enough fuel the test of the file, which can be opened, returns `ok` in the world `w'`. -/
def Tested (showPtr : Ptr → Bytes) (filename : Bytes) (w : World) (ok : Bool) (w' : World) : Prop :=
  ∃ n, ∀ fuel ≥ n, testIndividualFile fuel showPtr filename true w = .ok (ok, w')

def heading (filename : Bytes) : Bytes :=
  cs "\n\nAbout to open file \x1b[32;1m" ++ filename ++ cs "\x1b[39;22m.\n"

/-- What is printed of the node of a value with these children at the ends. -/
def Json.report (showPtr : Ptr → Bytes) (J : Json) (first last : Ptr) : Bytes :=
  cs "Got to the test_node_tree, baby.\n" ++
    (List.replicate 4 (ch ' ') ++ cs "Type \x27" ++ typeNames J.type ++ cs "\x27 (" ++ decimal J.type.toNat ++
      cs ")\n") ++
    comparisons showPtr ⟨none, none, first, none, last⟩

theorem testNodeTree_run (hn : w.heap.get? x = some (.node n)) : testNodeTree (some x) w = .ok ((), { w with
    stdout := w.stdout ++ (cs "Got to the test_node_tree, baby.\n" ++ (List.replicate 4 (ch ' ') ++
      cs "Type \x27" ++ typeNames n.type ++ cs "\x27 (" ++ decimal n.type.toNat ++ cs ")\n")) }) := by
  obtain ⟨w1, hw1⟩ : ∃ w1 : World, w1 = { w with
      stdout := w.stdout ++ cs "Got to the test_node_tree, baby.\n" } := ⟨_, rfl⟩
  have hn1 : w1.heap.get? x = some (.node n) := by
    rw [hw1]
    exact hn
  unfold testNodeTree displayNode
  rw [M.bind_ok (printf_run _ w), ← hw1, M.bind_ok (idName_run hn1), M.bind_ok (idType_run hn1), printf_run, hw1,
    List.append_assoc]

/-- The root of a document has children just where the document has members. -/
theorem Denotes.first {h : Store Cell} (hd : Denotes h t J) : firstOf t.kids none = none ↔ J.members = [] := by
  rw [firstOf_eq_none]
  cases hd with
  | scalar hJ _ =>
    refine iff_of_true rfl ?_
    cases J with
    | arr | obj => exact absurd trivial hJ
    | _ => rfl
  | @coll a k xs _ _ _ =>
    show xs.map _ = [] ↔ _
    cases k <;> simp [Kind.build, Json.members]

/-- The world of the test behind the heading. -/
def World.headed (w : World) (filename : Bytes) : World := { w with stdout := w.stdout ++ heading filename }

theorem testIndividualFile_run {fuel : Nat} {ok : Bool} {p : Ptr}
    (hparse : jdParseFile fuel (w.headed filename) = .ok ((ok, p), w')) :
    testIndividualFile fuel showPtr filename true w = (if ok then do
      testNodeTree p
      testGetRelations showPtr p
      jdDestroy p
      pure true
    else pure false : M Bool) w' := by
  unfold testIndividualFile
  rw [M.bind_ok (printf_run _ w), if_pos rfl]
  exact M.bind_ok hparse

theorem testNode_run {f : M Bool} {first last : Ptr} (hn : w.heap.get? x = some (.node n)) (ht : n.type = J.type)
    (hl : n.links = ⟨none, none, first, none, last⟩) : (testNodeTree (some x) >>= fun _ =>
      testGetRelations showPtr (some x) >>= fun _ => f) w =
        f { w with stdout := w.stdout ++ J.report showPtr first last } := by
  have hn' : ({ w with stdout := w.stdout ++ (cs "Got to the test_node_tree, baby.\n" ++
      (List.replicate 4 (ch ' ') ++ cs "Type \x27" ++ typeNames n.type ++ cs "\x27 (" ++
        decimal n.type.toNat ++ cs ")\n")) } : World).heap.get? x = some (.node n) := hn
  rw [M.bind_ok (testNodeTree_run hn), M.bind_ok (testGetRelations_run hn'), hl, ht, Json.report]
  simp only [List.append_assoc]

theorem document_tested (hw : w.Ample) (he : w.ending = .eof) (hdoc : Document J w.input) :
    ∃ first last w', Tested showPtr filename w true w' ∧
      (first = none ↔ J.members = []) ∧ (∀ x < w.heap.size, w'.heap.get? x = w.heap.get? x) ∧
      w'.stdout = w.stdout ++ heading filename ++ J.report showPtr first last ∧
      w'.heap.live.card = w.heap.live.card + J.bares := by
  have hw0 : (w.headed filename).Ample := hw
  obtain ⟨t, w1, s, ⟨fuel, hparse⟩, hm, hden, hlive⟩ :=
    document_made (w := w.headed filename) he (World.Ample.grants hw0 _) hdoc
  obtain ⟨n, hn, htype, -⟩ := hden.root
  have hlinks : n.links = ⟨none, none, firstOf t.kids none, none, lastOf t.kids none⟩ := by
    have hroot := hm.grown.hangs
    cases t with
    | node a ts => exact Option.some.inj ((links_of hn).symm.trans (linked_node.1 hroot).1)
  obtain ⟨w2, hw2⟩ : ∃ w2 : World, w2 = { w1 with
      stdout := w1.stdout ++ J.report showPtr (firstOf t.kids none) (lastOf t.kids none) } := ⟨_, rfl⟩
  have hget : w2.heap.get? = w1.heap.get? := by rw [hw2]
  obtain ⟨h', hdestroy, hframe, hlive'⟩ := destroy_made hm hden hlive hget
  refine ⟨firstOf t.kids none, lastOf t.kids none, { w2 with heap := h' }, ⟨fuel, fun m hfuel => ?_⟩,
    hden.first, hframe, ?_, hlive'⟩
  · rw [testIndividualFile_run (hparse m hfuel), if_pos rfl, testNode_run hn htype hlinks, ← hw2]
    exact (M.bind_ok hdestroy).trans rfl
  · show w2.stdout = _
    rw [hw2, hm.stdout]
    rfl

theorem failure_tested (hw : w.Ample) (he : w.ending = .eof) (hno : ∀ J, ¬ Document J w.input) :
    ∃ w', Tested showPtr filename w false w' ∧ (∀ x < w.heap.size, w'.heap.get? x = w.heap.get? x) ∧
      w'.stdout = w.stdout ++ heading filename := by
  have hw0 : (w.headed filename).Ample := hw
  have hv : (w.headed filename).verdict ≠ .diverge := by
    rw [World.verdict, show (w.headed filename).ending = .eof from he]
    exact Scan.atEnd_eof _
  obtain ⟨result, w1, hret⟩ := returns_of_verdict (hw0.grants _) hv
  rcases parse_outcome (hw0.grants _) hret with ⟨t, J, ha⟩ | ⟨c, offset, lastEnd, hr⟩
  · exact absurd ha.document (hno J)
  obtain ⟨fuel, hparse⟩ := hret
  refine ⟨w1, ⟨fuel, fun m hfuel => ?_⟩, hr.kept.frame, hr.kept.stdout⟩
  have hrun := hparse m hfuel
  rw [hr.result] at hrun
  exact testIndividualFile_run hrun

/-- **The test of a file.** A document is reported with its type and five comparisons, and those of the third and
the fourth relation fail just where the document has members; anything else makes the test fail. -/
theorem individual_file_exact (hw : w.Ample) (he : w.ending = .eof) :
    (∀ J, Document J w.input → ∃ first last w', Tested showPtr filename w true w' ∧
      (first = none ↔ J.members = []) ∧ (∀ x < w.heap.size, w'.heap.get? x = w.heap.get? x) ∧
      w'.stdout = w.stdout ++ heading filename ++ J.report showPtr first last ∧
      w'.heap.live.card = w.heap.live.card + J.bares) ∧
    ((∀ J, ¬ Document J w.input) → ∃ w', Tested showPtr filename w false w' ∧
      (∀ x < w.heap.size, w'.heap.get? x = w.heap.get? x) ∧ w'.stdout = w.stdout ++ heading filename) :=
  ⟨fun _ hdoc => document_tested hw he hdoc, fun hno => failure_tested hw he hno⟩

/-- The test of an object with a member: the object has a first child and no sibling in front of it. -/
theorem individual_file_exact_object : ∃ first last w', Tested (fun _ => []) (cs "object.json")
      (World.start (cs "\x7b\"a\":1\x7d") .eof) true w' ∧ first ≠ none ∧
    w'.stdout = [] ++ heading (cs "object.json") ++
      (Json.obj [(cs "a", .int (cs "1"))]).report (fun _ => []) first last ∧ w'.heap.live.card = 0 + 1 := by
  obtain ⟨first, last, w', hrun, hfirst, -, hout, hlive⟩ :=
    (individual_file_exact (start_ample (cs "\x7b\"a\":1\x7d") .eof) rfl).1 _ member_document
  exact ⟨first, last, w', hrun, fun hnone => List.cons_ne_nil _ _ (hfirst.1 hnone), hout, hlive⟩

end JsonDom
