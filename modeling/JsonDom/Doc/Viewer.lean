import JsonDom.Doc.Cost
import JsonDom.Doc.Errors
import JsonDom.Proof.Viewer

/-!
# The viewer

`open_json_file` with `test_getrel` as a whole: the document is printed, the keys are followed, and the tree is
gone in the end. What is not released is what the parse lost (`viewer_exact`).
-/

namespace JsonDom

open Lib OTree

variable {w w' : World} {t : OTree} {J : Json} {junk : Nat → Bytes} {filename : Bytes} {answer : Int}
  {keys : List Bytes}

/-- The lengths of the texts and the indents are numbers of `int`. -/
structure Json.Viewable (J : Json) : Prop where
  fits : Fits 0 J.levels
  small : ∀ pos v, J.view.get? pos = some v → v.text.length + 3 ≤ 2147483647

def prompt : Bytes := cs "\nPress any key to start examining nodes.\n"

/-- What is printed of a document. -/
def Json.session (J : Json) (answer : Int) (keys : List Bytes) : Bytes :=
  J.printed 0 ++ prompt ++
    if answer ≠ (ch 'q').toNat then J.view.screen [] ++ J.view.screens [] keys else []

/-- What is printed where the parse fails. -/
def failure (filename : Bytes) (message : String) : Bytes :=
  cs "Failed to parse \x27" ++ filename ++ cs "\x27: \x27" ++ cs message ++ cs "\x27\n"

/-- With enough fuel the program for an open file ends in the world `w'`. -/
def Shown (junk : Nat → Bytes) (filename : Bytes) (answer : Int) (keys : List Bytes) (w w' : World) : Prop :=
  ∃ n, ∀ fuel ≥ n, openJsonFile fuel junk filename true answer keys w = .ok ((), w')

/-- The error record is cleared before the parse. -/
def World.cleared (w : World) : World := { w with pe := { charLoc := 0, message := none } }

theorem clear_run (w : World) :
    (modify fun w => { w with pe := { charLoc := 0, message := none } } : M Unit) w = .ok ((), w.cleared) := rfl

theorem document_shown (hw : w.Ample) (he : w.ending = .eof) (h0 : 0 ∉ w.input) (hjunk : ∀ k, (junk k).length = k)
    (hdoc : Document J w.input) (hJ : J.Viewable) : ∃ w', Shown junk filename answer keys w w' ∧
      (∀ x < w.heap.size, w'.heap.get? x = w.heap.get? x) ∧
      w'.stdout = w.stdout ++ J.session answer keys ∧ w'.heap.live.card = w.heap.live.card + J.bares := by
  obtain ⟨t, w1, s, ⟨n1, hparse⟩, hm, hden, hlive⟩ := @document_made w.cleared J he (World.Ample.grants hw _) hdoc
  obtain ⟨u, v, p, -, hren, -, hin⟩ := hdoc
  have hno : J.NoNul := hren.noNul fun hz => h0 (by simp [hin, hz])
  obtain ⟨n2, hprint⟩ := printsOut hm.grown.hangs (hden.cstrings hno) hJ.fits
  -- the document is printed, and the walk leaves every cell as it is
  obtain ⟨w2, hw2⟩ : ∃ w2 : World, w2 = { w1 with stdout := w1.stdout ++ J.printed 0 ++ prompt } := ⟨_, rfl⟩
  have hsees : Sees w2.heap t J.view := by
    rw [hw2]
    exact ⟨hm.grown.hangs, hm.grown.owned, hden.mirrors hno hm.grown.hangs, hJ.small⟩
  have hw2' : w2.Ample := fun n => by
    rw [hw2]
    exact hm.oracle ▸ hw n
  have hwalk : ∃ w3,
      Idle w2 w3 (if answer ≠ (ch 'q').toNat then J.view.screen [] ++ J.view.screens [] keys else []) ∧
      ∀ f : M Unit, (if answer ≠ (ch 'q').toNat then testGetrel junk (some t.addr) keys >>= fun _ => f else f) w2 =
        f w3 := by
    by_cases hq : answer ≠ (ch 'q').toNat
    · obtain ⟨_, w3, hrun, -, hidle⟩ := getrel_run hsees hw2' hjunk keys
      refine ⟨w3, by rwa [if_pos hq], fun f => ?_⟩
      rw [if_pos hq, M.bind_ok hrun]
    · refine ⟨w2, by rw [if_neg hq]; exact .nil w2, fun f => ?_⟩
      rw [if_neg hq]
  obtain ⟨w3, hidle, hwalk⟩ := hwalk
  have hget : w3.heap.get? = w1.heap.get? := hidle.get.trans (by rw [hw2])
  obtain ⟨h4, hdestroy, hframe, hlive4⟩ := destroy_made hm hden hlive hget
  refine ⟨{ w3 with heap := h4 }, ⟨max n1 n2, fun fuel hfuel => ?_⟩, fun x hx => ?_, ?_, ?_⟩
  · have hserialize : jdSerialize fuel 1 (some t.addr) w1 = _ := hprint fuel (by omega)
    unfold openJsonFile
    rw [if_pos rfl]
    refine (M.bind_ok (clear_run w)).trans ((M.bind_ok (hparse fuel (by omega))).trans ?_)
    refine (M.bind_ok hserialize).trans ((M.bind_ok (printf_run prompt _)).trans ?_)
    rw [← hw2]
    exact (hwalk _).trans hdestroy
  · exact hframe x hx
  · show w3.stdout = _
    rw [hidle.stdout, hw2, Json.session]
    simp only [hm.stdout, List.append_assoc]
    rfl
  · exact hlive4

/-- The message of the check that refuses the file is printed. -/
def Failed (filename : Bytes) (w w' : World) : Prop :=
  ∃ c message offset lastEnd, w.verdict = .fail c offset lastEnd ∧ c.message = some message ∧
    w'.stdout = w.stdout ++ failure filename message

theorem failure_shown (hw : w.Ample) (he : w.ending = .eof) (hno : ∀ J, ¬ Document J w.input) :
    ∃ w', Shown junk filename answer keys w w' ∧ (∀ x < w.heap.size, w'.heap.get? x = w.heap.get? x) ∧
      Failed filename w w' := by
  have hv : w.cleared.verdict ≠ .diverge := by
    rw [World.verdict, show w.cleared.ending = .eof from he]
    exact Scan.atEnd_eof _
  obtain ⟨result, w1, hret⟩ := @returns_of_verdict w.cleared (hw.grants _) hv
  rcases @parse_outcome w.cleared w1 result (hw.grants _) hret with ⟨t, J, ha⟩ | ⟨c, offset, lastEnd, hr⟩
  · exact absurd ha.document (hno J)
  · obtain ⟨n, hparse⟩ := hret
    rw [hr.result] at hparse
    -- without a read error every check has a message
    have hm : c.message ≠ none := fun hm => by
      obtain ⟨herr, -⟩ := Scan.atEnd_silent (scanned_reported w) hr.verdict hm
      cases he.symm.trans herr
    obtain ⟨message, hm⟩ := Option.ne_none_iff_exists'.1 hm
    have hmessage : w1.pe.message = some message := by
      rw [hr.record, hr.verdict]
      simp only [Verdict.record, hm]
    refine ⟨{ w1 with stdout := w1.stdout ++ failure filename message }, ⟨n, fun fuel hfuel => ?_⟩,
      hr.kept.frame, c, message, offset, lastEnd, hr.verdict, hm, ?_⟩
    · unfold openJsonFile
      rw [if_pos rfl]
      refine (M.bind_ok (clear_run w)).trans ((M.bind_ok (hparse fuel hfuel)).trans ?_)
      refine (M.bind_ok (a := w1) rfl).trans ?_
      rw [hmessage]
      rfl
    · show w1.stdout ++ _ = _
      rw [hr.kept.stdout]
      rfl

/-- **The viewer**: a document is printed and its screens are shown along the keys, anything else is refused with
the message of the check that failed; the tree is gone in the end and no old cell is changed. -/
theorem viewer_exact (hw : w.Ample) (he : w.ending = .eof) (h0 : 0 ∉ w.input) (hjunk : ∀ k, (junk k).length = k) :
    (∀ J, Document J w.input → J.Viewable → ∃ w', Shown junk filename answer keys w w' ∧
      (∀ x < w.heap.size, w'.heap.get? x = w.heap.get? x) ∧
      w'.stdout = w.stdout ++ J.session answer keys ∧ w'.heap.live.card = w.heap.live.card + J.bares) ∧
    ((∀ J, ¬ Document J w.input) → ∃ w', Shown junk filename answer keys w w' ∧
      (∀ x < w.heap.size, w'.heap.get? x = w.heap.get? x) ∧ Failed filename w w') :=
  ⟨fun _ hdoc hJ => document_shown hw he h0 hjunk hdoc hJ, failure_shown hw he⟩

/-- What holds of a tree and goes over to the children holds of every subtree. -/
theorem View.get?_closed {P : View → Prop} {V v : View} {pos : List Nat} (hV : P V)
    (hkids : ∀ u, P u → ∀ k ∈ u.kids, P k) (h : V.get? pos = some v) : P v := by
  induction pos generalizing v with
  | nil =>
    cases h
    exact hV
  | cons i pos ih =>
    obtain ⟨u, hu, hv⟩ := Option.bind_eq_some_iff.1 h
    exact hkids u (ih hu) v (List.mem_of_getElem? hv)

def memberJson : Json := .obj [(cs "a", .int (cs "1"))]

theorem member_viewable : memberJson.Viewable := by
  refine ⟨.inr (by decide), fun pos v hv => ?_⟩
  let views : List View := [memberJson.view, viewMember (cs "a", .int (cs "1")), .node .jdString (cs "a") [],
    .node .jdInteger (cs "1") []]
  have hmem : v ∈ views := by
    refine View.get?_closed (P := (· ∈ views)) List.mem_cons_self (fun u hu k hk => ?_) hv
    simp only [views, List.mem_cons, List.not_mem_nil, or_false] at hu ⊢
    rcases hu with rfl | rfl | rfl | rfl
    · exact .inr (.inl (List.mem_singleton.1 hk))
    · obtain rfl | hk := List.mem_cons.1 hk
      · exact .inr (.inr (.inl rfl))
      · exact .inr (.inr (.inr (List.mem_singleton.1 hk)))
    · cases hk
    · cases hk
  exact (by decide : ∀ v ∈ views, v.text.length + 3 ≤ 2147483647) v hmem

/-- An object with a member: the keys lead to the property, its label and its value. -/
theorem viewer_exact_member : ∃ w',
    Shown (List.replicate · 120) (cs "object.json") 10 [keyDown, keyDown, keyRight, cs "q"]
      (World.start (cs "\x7b\"a\":1\x7d") .eof) w' ∧
    memberJson.view.walk [] [keyDown, keyDown, keyRight, cs "q"] = [1, 0] ∧
    w'.stdout = [] ++ memberJson.session 10 [keyDown, keyDown, keyRight, cs "q"] ∧ w'.heap.live.card = 0 + 1 := by
  obtain ⟨w', hshown, -, hout, hlive⟩ := (viewer_exact (start_ample (cs "\x7b\"a\":1\x7d") .eof) rfl (by decide)
    (fun k => List.length_replicate)).1 _ member_document member_viewable
  exact ⟨w', hshown, by decide, hout, hlive⟩

end JsonDom
