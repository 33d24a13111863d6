import JsonDom.Proof.Outcome
import JsonDom.Proof.Print

/-!
# Printing and parsing back

`jd_Node_serialize` prints a text of the document that a tree stands for, and `jd_parse_file` reads
that text back into a tree of the same document (`serialize_parse`), at every indent.
-/

namespace JsonDom

open Lib OTree

variable {w : World} {t : OTree} {J : Json} {indent : Int} {up prev next : Ptr}

theorem serialize_document (hlink : Linked (links w.heap) up prev next t)
    (hd : Denotes (cstrings w.heap) t J) (hv : J.Valid) (hfit : Fits indent J.levels) :
    ∃ d, Document J d ∧ ∃ n, ∀ fuel ≥ n, jdNodeSerialize fuel (some t.addr) indent w =
      .ok ((), { w with stdout := w.stdout ++ d }) := by
  obtain ⟨u, v, hu, hr, hp⟩ := prints_value hd hv hlink indent hfit
  obtain ⟨n, hn, ht⟩ := denotes_type hd
  have hall : Prints w.heap (fun fuel => jdNodeSerialize fuel (some t.addr) indent) (u ++ v ++ [ch '\n']) := by
    refine .read (getNode_reads hn) ?_
    rw [ht]
    exact hp.seq (.text w.heap [ch '\n'])
  obtain ⟨m, hm⟩ := hall
  refine ⟨u ++ v ++ [ch '\n'], ⟨u, v, [ch '\n'], hu, hr, .inl ?_, List.append_assoc u v _⟩,
    m, fun fuel hfuel => hm fuel hfuel w rfl⟩
  exact blank_cons.2 ⟨by decide, .nil⟩

/-- **Printing a tree and parsing the bytes gives back the document**, and no `assert` of a printer
fails. -/
theorem serialize_parse (hlink : Linked (links w.heap) up prev next t)
    (hd : Denotes (cstrings w.heap) t J) (hv : J.Valid) (hfit : Fits indent J.levels) :
    ∃ d, (∃ n, ∀ fuel ≥ n, jdNodeSerialize fuel (some t.addr) indent w =
        .ok ((), { w with stdout := w.stdout ++ d })) ∧
      ∀ w2 : World, w2.Ample → w2.input = d → ∃ t' w2', Returns w2 (true, some t'.addr) w2' ∧
        IsTree w2'.heap t' J := by
  obtain ⟨d, hdoc, hprint⟩ := serialize_document hlink hd hv hfit
  refine ⟨d, hprint, fun w2 hw hin => ?_⟩
  subst hin
  obtain ⟨t', w2', hret, ha⟩ := document_parsed (hw.grants _) hdoc
  exact ⟨t', w2', hret, ha.isTree⟩

/-- The memory of the tree of `{"a":[1]}`. -/
def sampleHeap : Store Cell :=
  let link (parent next first prev last : Ptr) (type : JdType) (payload : Ptr) : Option Cell :=
    some (.node ⟨parent, next, first, prev, last, type, payload⟩)
  ⟨[link none none (some 1) none (some 1) .jdObject none,
    link (some 0) none (some 2) none (some 3) .jdProperty none,
    link (some 1) (some 3) none none none .jdString (some 5),
    link (some 1) none (some 4) (some 2) (some 4) .jdArray none,
    link (some 3) none none none none .jdInteger (some 6),
    some (.text (cs "a" ++ [0])), some (.text (cs "1" ++ [0]))]⟩

def sampleTree : OTree := .node 0 [.node 1 [.node 2 [], .node 3 [.node 4 []]]]

def sampleJson : Json := .obj [(cs "a", .arr [.int (cs "1")])]

theorem sample_linked : Linked (links sampleHeap) none none none sampleTree := by
  unfold sampleTree
  simp only [linked_node, chain_cons, chain_nil, and_true]
  exact ⟨rfl, rfl, rfl, rfl, rfl⟩

theorem sample_denotes : Denotes (cstrings sampleHeap) sampleTree sampleJson := by
  have hone : Denotes (cstrings sampleHeap) (.node 4 []) (.int (cs "1")) :=
    .scalar id ⟨_, rfl, rfl, 6, rfl, rfl⟩
  have harr : Denotes (cstrings sampleHeap) (.node 3 [.node 4 []]) (.arr [.int (cs "1")]) :=
    @Denotes.coll _ 3 .arr [⟨[], .int (cs "1"), 0, 0, .node 4 []⟩] (by simpa using hone)
      (by simp [Item.Labelled]) ⟨_, rfl, rfl, rfl⟩
  refine @Denotes.coll _ 0 .obj [⟨cs "a", .arr [.int (cs "1")], 1, 2, .node 3 [.node 4 []]⟩]
    (by simpa using harr) ?_ ⟨_, rfl, rfl, rfl⟩
  exact List.forall_mem_singleton.2 ⟨⟨_, rfl, rfl, rfl⟩, _, rfl, rfl, 5, rfl, rfl⟩

theorem sample_valid : sampleJson.Valid := by
  have hone : (Json.int (cs "1")).Valid := .int (by decide)
  have harr : (Json.arr [.int (cs "1")]).Valid :=
    @Json.Valid.coll .arr [([], .int (cs "1"))] (by simpa using hone) nofun
  have hlabel : Body (cs "a") := @Body.plain 97 [] (by decide) (by decide) .nil
  exact @Json.Valid.coll .obj [(cs "a", .arr [.int (cs "1")])] (by simpa using harr)
    (by simpa using hlabel)

theorem serialize_parse_sample : ∃ d, (∃ n, ∀ fuel ≥ n,
      jdNodeSerialize fuel (some 0) 0 { World.start [] .eof with heap := sampleHeap } =
        .ok ((), { World.start [] .eof with heap := sampleHeap, stdout := d })) ∧
    ∀ w2 : World, w2.Ample → w2.input = d → ∃ t' w2', Returns w2 (true, some t'.addr) w2' ∧
      IsTree w2'.heap t' sampleJson :=
  @serialize_parse { World.start [] .eof with heap := sampleHeap } sampleTree sampleJson 0 none none none
    sample_linked sample_denotes sample_valid (.inr (by decide))

end JsonDom
