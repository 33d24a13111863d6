import JsonDom.Proof.Outcome

/-!
# The language of the parser

Ended by the end of the file a call always comes to a decision, and what it accepts is the grammar
(`language_decided`). A text of the grammar is a text of one document (`document_unique`): a text of RFC
8259 cannot be read as anything but what the RFC says.
-/

namespace JsonDom

open Lib OTree

variable {w : World} {J J' : Json} {d : Bytes}

/-- **A text of the grammar is a text of one document.** -/
theorem document_unique (h : Document J d) (h' : Document J' d) : J = J' := by
  let s : Src := { input := d, ending := .eof, offset := 0, pe := { charLoc := 0, message := none } }
  have hread := @file_complete J s h (8 * d.length + 3)
  have hread' := @file_complete J' s h' (8 * d.length + 3)
  have henough : Reader.file (8 * d.length + 3) s ≠ .timeout := @file_enough (World.start d .eof) rfl
  cases ho : Reader.file (8 * d.length + 3) s with
  | timeout => exact absurd ho henough
  | fail =>
    rw [ho] at hread
    exact hread.elim
  | ok K s' =>
    rw [ho] at hread hread'
    exact hread.1.symm.trans hread'.1

theorem one_document : Document (.int (cs "1")) (cs " 1") :=
  ⟨cs " ", cs "1", [], fun b hb => by rw [List.mem_singleton.1 hb]; rfl, .bare ⟨rfl, by decide⟩, .inl .nil, rfl⟩

theorem member_document : Document (.obj [(cs "a", .int (cs "1"))]) (cs "\x7b\"a\":1\x7d") := by
  have hone : Renders (.int (cs "1")) (cs "1") := .bare ⟨rfl, by decide⟩
  have hlabel : Body (cs "a") := @Body.plain 97 [] (by decide) (by decide) .nil
  have hcolon : Colons [ch ':'] := ⟨fun b hb => .inr (List.mem_singleton.1 hb), List.mem_singleton_self _⟩
  have hmember : Piece.Member ⟨cs "a", .int (cs "1"), cs "1"⟩ .obj (cs "\"a\":1") :=
    ⟨⟨hlabel, [ch ':'], [], hcolon, .inl rfl, rfl⟩, fun h => h.elim⟩
  have hrenders : Renders (.obj [(cs "a", .int (cs "1"))]) (cs "\x7b\"a\":1\x7d") :=
    @Renders.coll .obj [⟨cs "a", .int (cs "1"), cs "1"⟩] _ (by simpa using hone)
      (.inr ⟨[], _, [], _, .nil, hmember, .inl .nil, rfl, .inl ⟨rfl, rfl⟩⟩)
  exact ⟨[], _, [], .nil, hrenders, .inl .nil, rfl⟩

theorem document_unique_one : Document (.int (cs "1")) (cs " 1") ∧ ¬ Document (.float (cs "1")) (cs " 1") := by
  refine ⟨one_document, fun h => ?_⟩
  cases document_unique one_document h

/-- The call decides the language: it returns true with the tree of `J` just for the texts of `J`, and
false just for what is no text. -/
structure Decides (w : World) : Prop where
  accepts : ∀ J, (∃ t w', Returns w (true, some t.addr) w' ∧ IsTree w'.heap t J) ↔ Document J w.input
  rejects : (∃ w', Returns w (false, none) w') ↔ ∀ J, ¬ Document J w.input

theorem parsed_document {t : OTree} {w' : World} (hw : w.Ample) (hret : Returns w (true, some t.addr) w')
    (ht : IsTree w'.heap t J) : Document J w.input := by
  rcases parse_outcome (hw.grants _) hret with ⟨t', K, ha⟩ | ⟨c, offset, lastEnd, hr⟩
  · have haddr : t.addr = t'.addr := by simpa using ha.result
    obtain rfl : t = t' := linked_unique ht.linked ha.grown.hangs haddr
    rw [ht.denotes.unique ha.denotes]
    exact ha.document
  · cases hr.result

/-- **The accepted language is the grammar**, and every other byte sequence is refused. -/
theorem language_decided (hw : w.Ample) (he : w.ending = .eof) : Decides w := by
  refine ⟨fun J => ⟨fun ⟨t, w', hret, ht⟩ => parsed_document hw hret ht, fun hd => ?_⟩,
    fun ⟨w', hret⟩ J hd => ?_, fun hno => ?_⟩
  · obtain ⟨t, w', hret, ha⟩ := document_parsed (hw.grants _) hd
    exact ⟨t, w', hret, ha.isTree⟩
  · obtain ⟨t, w1, hret', -⟩ := document_parsed (hw.grants _) hd
    cases (hret.unique hret').1
  · have hv : w.verdict ≠ .diverge := by
      rw [World.verdict, he]
      exact Scan.atEnd_eof _
    obtain ⟨result, w', hret⟩ := returns_of_verdict (hw.grants _) hv
    rcases parse_outcome (hw.grants _) hret with ⟨t, J, ha⟩ | ⟨c, offset, lastEnd, hr⟩
    · exact absurd ha.document (hno J)
    · exact ⟨w', hr.result ▸ hret⟩

theorem language_decided_start : Decides (World.start (cs "[1,]") .eof) :=
  language_decided (start_ample _ _) rfl

end JsonDom
