import JsonDom.Proof.CharBag
import JsonDom.Proof.Reading
import JsonDom.Spec.Requests

/-!
# Reading a lexeme into memory

Where its requests are granted `jReadString` computes `Src.lex`: the string it makes is the text of the
lexeme, which is all that is left in memory of the call (`readQuoted_run`, `readUnquoted_run`). Where the
string of a text that the end of the file ends is refused it fails (`readUnquoted_refused`).
-/

namespace JsonDom

open Lib

variable {w : World} {lo : Nat} {as : List Addr} {text : Bytes} {cbag : CharBag}

theorem read_run (w : World) :
    read w = .ok (w.toSrc.read.1, { w with toSrc := w.toSrc.read.2 }) := rfl

theorem report_run (m : String) (w : World) :
    reportParseError m w = .ok ((), { w with toSrc := w.toSrc.report m }) := rfl

/-- No allocation fails. -/
def World.Ample (w : World) : Prop := ∀ k, w.oracle k = true

theorem Kept.ample {w w' : World} (h : Kept lo w w') (hw : w.Ample) : w'.Ample := fun k => by
  rw [h.oracle]
  exact hw k

/-- A world that differs in the file only. -/
theorem Kept.src (lo : Nat) (w : World) (s : Src) : Kept lo w { w with toSrc := s } :=
  ⟨Nat.le_refl _, fun _ _ => rfl, rfl, rfl⟩

/-- The `n` allocations from the one with the number `start` on are granted. -/
def Granted (oracle : Nat → Bool) (start n : Nat) : Prop := ∀ i < n, oracle (start + i) = true

/-- These requests are granted, the next ones. -/
def World.Grants (w : World) (rs : List Request) : Prop := Granted w.oracle w.mallocs rs.length

theorem World.Ample.grants {w : World} (hw : w.Ample) (rs : List Request) : w.Grants rs := fun _ _ => hw _

theorem leafCount_mono {n m : Nat} (h : n ≤ m) : leafCount n ≤ leafCount m :=
  Nat.div_le_div_right (Nat.sub_le_sub_right h 1)

/-- The leaves of the bag are those its text needs, and they are what was asked for since `start`. -/
structure Counted (start : Nat) (w : World) (as : List Addr) (text : Bytes) : Prop where
  leaves : as.length = leafCount text.length
  mallocs : w.mallocs = start + leafCount text.length

variable {start : Nat}

/-- `addCharToBag` where the leaf it may ask for is granted. -/
theorem addChar_granted (hb : Bag w.heap cbag as text) (ho : Only lo w.heap as) (hlo : lo ≤ w.heap.size)
    (hn : Counted start w as text) (c : UInt8)
    (hg : Granted w.oracle start (leafCount (text ++ [c]).length)) :
    ∃ cbag' w' as', addCharToBag cbag c w = .ok ((true, cbag'), w') ∧
      Bag w'.heap cbag' as' (text ++ [c]) ∧ Only lo w'.heap as' ∧ Kept lo w w' ∧
      w'.toSrc = w.toSrc ∧ Counted start w' as' (text ++ [c]) := by
  obtain ⟨ok, cbag', w', as', hrun, hb', ho', hk, hsrc, hasked⟩ := addCharToBag_run hb ho hlo c
  have hleaves := hn.leaves
  have hmallocs := hn.mallocs
  rw [List.length_append, List.length_singleton] at hg
  -- whether a leaf was asked for can be seen from the length of the text
  obtain ⟨rfl, hcount⟩ : ok = true ∧ as'.length = leafCount (text.length + 1) ∧
      w'.mallocs = start + leafCount (text.length + 1) := by
    rcases hasked with ⟨hroom, hok, hm, has⟩ | ⟨hfull, hok, hm, has⟩
    · have hsame : leafCount (text.length + 1) = leafCount text.length := by
        simp only [leafCount, cbLeafSize] at *
        omega
      exact ⟨hok, by rw [has, hleaves, hsame], by rw [hm, hmallocs, hsame]⟩
    · have hmore : leafCount (text.length + 1) = leafCount text.length + 1 := by
        simp only [leafCount, cbLeafSize] at *
        omega
      have hok : ok = true := by
        rw [hok, hmallocs]
        exact hg _ (by omega)
      exact ⟨hok, by rw [has hok, hleaves, hmore], by rw [hm, hmallocs, hmore]; omega⟩
  have hlength : (text ++ [c]).length = text.length + 1 := by simp
  exact ⟨cbag', w', as', hrun, hb', ho', hk, hsrc, by rw [hlength]; exact hcount.1,
    by rw [hlength]; exact hcount.2⟩

/-- The string of the bag is made, in a new block. -/
theorem string_made (hb : Bag w.heap cbag as text) (hlo : lo ≤ w.heap.size)
    (hg : w.oracle w.mallocs = true) :
    ∃ w' a, charBagToString cbag w = .ok (some a, w') ∧ Bag w'.heap cbag as text ∧ Kept lo w w' ∧
      w'.toSrc = w.toSrc ∧ w'.mallocs = w.mallocs + 1 ∧ lo ≤ a ∧ a ∉ as ∧
      w'.heap.get? a = some (.text (text ++ [0])) ∧ (Only lo w.heap as → Only lo w'.heap (a :: as)) := by
  obtain ⟨hb2, hnew⟩ := hb.alloc (.text (text ++ [0]))
  refine ⟨_, _, charBagToString_run hb hg, hb2, ⟨?_, fun x hx => ?_, rfl, rfl⟩, rfl, rfl, hlo, hnew,
    Store.get?_alloc_self _ _, fun ho => ⟨List.forall_mem_cons.2 ⟨hlo, ho.1⟩, fun x hx hm => ?_⟩⟩
  · rw [Store.size_alloc]
    exact Nat.le_succ _
  · exact Store.get?_alloc_lt (Nat.lt_of_lt_of_le hx hlo)
  · rw [List.mem_cons, not_or] at hm
    exact (Store.get?_alloc_ne hm.1).trans (ho.2 x hx hm.2)

/-- The bag is emptied, which touches nothing that is older. -/
theorem bag_emptied (hb : Bag w.heap cbag as text) (has : ∀ x ∈ as, lo ≤ x) :
    ∃ cbag' w', charBagCleanup cbag w = .ok (cbag', w') ∧ Kept lo w w' ∧ w'.toSrc = w.toSrc ∧
      w'.mallocs = w.mallocs ∧ ∀ x, w'.heap.get? x = if x ∈ as then none else w.heap.get? x := by
  obtain ⟨cbag', h', hrun, hsize, hget⟩ := charBagCleanup_run hb
  refine ⟨cbag', _, hrun, ⟨Nat.le_of_eq hsize.symm, fun x hx => ?_, rfl, rfl⟩, rfl, rfl, hget⟩
  exact (hget x).trans (if_neg fun hm => absurd (has x hm) (Nat.not_le_of_lt hx))

/-- The loop of `jReadString` at the end character `e`, with the text of the lexeme in the bag. -/
def atEnd (toString : CharBag → M Ptr) (fuel : Nat) (handle : RSHandle) (e : UInt8) (cbag : CharBag) :
    M (Bool × RSHandle × CharBag) := do
  match ← toString cbag with
  | some value => pure (true, { handle with endSignal := e, string := some value }, cbag)
  | none => jReadString.loop toString fuel handle cbag false

/-- The loop of `jReadString` has put the lexeme `r` into the bag behind `text`, however the string is
made. -/
def LoopEnds (lo start : Nat) (w : World) (handle : RSHandle) (text : Bytes) (r : Lexeme)
    (run : (CharBag → M Ptr) → Except Halt ((Bool × RSHandle × CharBag) × World)) : Prop :=
  ∃ cbag' w' as', Bag w'.heap cbag' as' (text ++ r.1.1) ∧ Only lo w'.heap as' ∧ Kept lo w w' ∧
    w'.toSrc = { w.toSrc with input := r.2.1, offset := r.2.2 } ∧ Counted start w' as' (text ++ r.1.1) ∧
    match r.1.2 with
    | some e => ∃ n, ∀ toString, run toString = atEnd toString n handle e cbag' w'
    | none => ∀ toString, run toString = .ok ((false, handle, cbag'), w')

theorem LoopEnds.congr {handle : RSHandle} {r : Lexeme}
    {run run' : (CharBag → M Ptr) → Except Halt ((Bool × RSHandle × CharBag) × World)}
    (h : LoopEnds lo start w handle text r run') (hrun : ∀ toString, run toString = run' toString) :
    LoopEnds lo start w handle text r run :=
  (funext hrun : run = run') ▸ h

theorem LoopEnds.prepend {w1 w2 : World} {handle : RSHandle} {xs : Bytes} {r : Lexeme}
    {run : (CharBag → M Ptr) → Except Halt ((Bool × RSHandle × CharBag) × World)} (hk : Kept lo w1 w2)
    (hend : w2.ending = w1.ending) (hpe : w2.pe = w1.pe)
    (h : LoopEnds lo start w2 handle (text ++ xs) r run) :
    LoopEnds lo start w1 handle text (r.prepend xs) run := by
  obtain ⟨cbag', w', as', hb, ho, hk', hsrc, hn, hrun⟩ := h
  rw [List.append_assoc] at hb hn
  refine ⟨cbag', w', as', hb, ho, hk.trans hk' (Nat.le_refl _), ?_, hn, hrun⟩
  rw [hsrc]
  dsimp only
  rw [hend, hpe]
  rfl

/-- The allocations asked for when a lexeme was read behind `text`. -/
def Lexeme.asks (text : Bytes) (r : Lexeme) : Nat :=
  leafCount (text ++ r.1.1).length + if r.1.2.isSome then 1 else 0

theorem Granted.mono {oracle : Nat → Bool} {n m : Nat} (h : Granted oracle start n) (hm : m ≤ n) :
    Granted oracle start m := fun i hi => h i (Nat.lt_of_lt_of_le hi hm)

/-- The leaves of a part of the text are among those of the text. -/
theorem Granted.leaves {oracle : Nat → Bool} {r : Lexeme} {xs : Bytes}
    (h : Granted oracle start (leafCount (text ++ (r.prepend xs).1.1).length)) :
    Granted oracle start (leafCount (text ++ xs).length) :=
  h.mono (leafCount_mono (by simp [Lexeme.prepend]))

theorem readLoop_ends {fuel : Nat} {handle : RSHandle} {esc : Bool} (hb : Bag w.heap cbag as text)
    (ho : Only lo w.heap as) (hlo : lo ≤ w.heap.size) (hn : Counted start w as text)
    (hg : Granted w.oracle start
      (leafCount (text ++ (lex handle.endCheck esc w.input w.offset).1.1).length))
    (hf : w.input.length < fuel) :
    LoopEnds lo start w handle text (lex handle.endCheck esc w.input w.offset)
      fun toString => jReadString.loop toString fuel handle cbag esc w := by
  induction fuel generalizing w cbag as text esc with
  | zero => omega
  | succ fuel ih =>
    cases hi : w.input with
    | nil =>
      have hread : ∃ r, w.toSrc.read = (r, w.toSrc) ∧ (r = .zero ∨ r = .minusOne) := by
        rw [Src.read, hi]
        exact ⟨_, rfl, by split <;> simp⟩
      obtain ⟨r, hr, hor⟩ := hread
      have hlex : lex handle.endCheck esc [] w.offset = (([], none), [], w.offset) := by
        cases esc <;> rfl
      rw [hlex]
      refine ⟨cbag, w, as, by simpa using hb, ho, .refl _ _, ?_, by simpa using hn, fun toString => ?_⟩
      · dsimp only
        rw [← hi]
      · dsimp only
        rw [jReadString.loop, M.bind_ok (read_run w), hr]
        rcases hor with rfl | rfl <;> rfl
    | cons b bs =>
      rw [hi] at hg
      obtain ⟨w1, hw1⟩ : ∃ w1, w1 =
        { w with toSrc := { w.toSrc with input := bs, offset := w.offset + 1 } } := ⟨_, rfl⟩
      have hread : read w = .ok (.one b, w1) := by rw [read_run, read_cons hi, hw1]
      have hk1 : Kept lo w w1 := hw1 ▸ .src lo w _
      have hb1 : Bag w1.heap cbag as text := hw1 ▸ hb
      have ho1 : Only lo w1.heap as := hw1 ▸ ho
      have hn1 : Counted start w1 as text := hw1 ▸ ⟨hn.leaves, hn.mallocs⟩
      have hi1 : w1.input = bs := by rw [hw1]
      have hoff1 : w1.offset = w.offset + 1 := by rw [hw1]
      have hlen : bs.length < fuel := by
        rw [hi] at hf
        simpa using hf
      cases esc with
      | true =>
        rw [lex] at hg ⊢
        obtain ⟨cbag2, w2, as2, hrun2, hb2, ho2, hk2, hsrc2, hn2⟩ :=
          addChar_granted hb1 ho1 (Nat.le_trans hlo hk1.size) hn1 (ch '\\')
            (by rw [hk1.oracle]; exact hg.leaves.mono (leafCount_mono (by simp)))
        have hk2 := hk1.trans hk2 (Nat.le_refl lo)
        obtain ⟨cbag3, w3, as3, hrun3, hb3, ho3, hk3, hsrc3, hn3⟩ :=
          addChar_granted hb2 ho2 (Nat.le_trans hlo hk2.size) hn2 b
            (by rw [hk2.oracle]; exact hg.leaves.mono (leafCount_mono (by simp)))
        have hk3 := hk2.trans hk3 (Nat.le_refl lo)
        have hsrc : w3.toSrc = w1.toSrc := hsrc3.trans hsrc2
        rw [List.append_assoc] at hb3 hn3
        have hih := ih hb3 ho3 (Nat.le_trans hlo hk3.size) hn3
          (by rw [hsrc, hi1, hoff1, hk3.oracle, List.append_assoc]; exact hg) (by rw [hsrc, hi1]; exact hlen)
        rw [hsrc, hi1, hoff1] at hih
        refine (hih.prepend hk3 (by rw [hsrc, hw1]) (by rw [hsrc, hw1])).congr fun toString => ?_
        rw [jReadString.loop, M.bind_ok hread]
        dsimp only
        rw [if_pos rfl, M.bind_ok hrun2]
        dsimp only
        rw [M.bind_ok hrun3]
      | false =>
        by_cases hs : b = ch '\\'
        · rw [lex, if_pos hs] at hg ⊢
          have hih := @ih w1 as _ cbag true hb1 ho1 (Nat.le_trans hlo hk1.size) hn1
            (by rw [hi1, hoff1, hk1.oracle]; exact hg) (by rw [hi1]; exact hlen)
          rw [hi1, hoff1, ← List.append_nil text] at hih
          have hends := hih.prepend hk1 (by rw [hw1]) (by rw [hw1])
          refine LoopEnds.congr (by simpa [Lexeme.prepend] using hends) fun toString => ?_
          rw [jReadString.loop, M.bind_ok hread]
          dsimp only
          rw [if_neg Bool.false_ne_true, if_pos hs]
        by_cases he : handle.endCheck b = true
        · rw [lex, if_neg hs, if_pos he]
          refine ⟨cbag, w1, as, by simpa using hb1, ho1, hk1, by rw [hw1], by simpa using hn1, fuel,
            fun toString => ?_⟩
          dsimp only
          rw [jReadString.loop, M.bind_ok hread]
          dsimp only
          rw [if_neg Bool.false_ne_true, if_neg hs, if_pos he]
          rfl
        · rw [lex, if_neg hs, if_neg he] at hg ⊢
          obtain ⟨cbag2, w2, as2, hrun2, hb2, ho2, hk2, hsrc2, hn2⟩ :=
            addChar_granted hb1 ho1 (Nat.le_trans hlo hk1.size) hn1 b (by rw [hk1.oracle]; exact hg.leaves)
          have hk2 := hk1.trans hk2 (Nat.le_refl lo)
          have hih := @ih w2 as2 _ cbag2 false hb2 ho2 (Nat.le_trans hlo hk2.size) hn2
            (by rw [hsrc2, hi1, hoff1, hk2.oracle, List.append_assoc]; exact hg)
            (by rw [hsrc2, hi1]; exact hlen)
          rw [hsrc2, hi1, hoff1] at hih
          refine (hih.prepend hk2 (by rw [hsrc2, hw1]) (by rw [hsrc2, hw1])).congr fun toString => ?_
          rw [jReadString.loop, M.bind_ok hread]
          dsimp only
          rw [if_neg Bool.false_ne_true, if_neg hs, if_neg he, M.bind_ok hrun2]

/-- What the loop of `jReadString` leaves when it has read the lexeme `r` behind `text`. -/
def LoopLeft (lo start : Nat) (w : World) (handle : RSHandle) (text : Bytes) (r : Lexeme)
    (res : Except Halt ((Bool × RSHandle × CharBag) × World)) : Prop :=
  ∃ cbag' w' as', Bag w'.heap cbag' as' (text ++ r.1.1) ∧ Kept lo w w' ∧
    w'.toSrc = { w.toSrc with input := r.2.1, offset := r.2.2 } ∧
    match r.1.2 with
    | some e => ∃ a, res =
        .ok ((true, { handle with endSignal := e, string := some a }, cbag'), w') ∧
        w'.heap.get? a = some (.text (text ++ r.1.1 ++ [0])) ∧ a ∉ as' ∧ Only lo w'.heap (a :: as') ∧
        w'.mallocs = start + leafCount (text ++ r.1.1).length + 1
    | none => res = .ok ((false, handle, cbag'), w') ∧ Only lo w'.heap as' ∧
        Counted start w' as' (text ++ r.1.1)

theorem readLoop_run {fuel : Nat} {handle : RSHandle} {esc : Bool} (hb : Bag w.heap cbag as text)
    (ho : Only lo w.heap as) (hlo : lo ≤ w.heap.size) (hn : Counted start w as text)
    (hg : Granted w.oracle start ((lex handle.endCheck esc w.input w.offset).asks text))
    (hf : w.input.length < fuel) :
    LoopLeft lo start w handle text (lex handle.endCheck esc w.input w.offset)
      (jReadString.loop charBagToString fuel handle cbag esc w) := by
  have hends := readLoop_ends hb ho hlo hn (hg.mono (Nat.le_add_right _ _)) hf
  generalize lex handle.endCheck esc w.input w.offset = r at hg hends ⊢
  obtain ⟨cbag1, w1, as1, hb1, ho1, hk1, hsrc1, hn1, hrun⟩ := hends
  unfold LoopLeft
  cases he : r.1.2 with
  | none =>
    rw [he] at hrun
    exact ⟨cbag1, w1, as1, hb1, hk1, hsrc1, hrun _, ho1, hn1⟩
  | some e =>
    rw [he] at hrun
    obtain ⟨n, hrun⟩ := hrun
    have hgrant : w1.oracle w1.mallocs = true := by
      rw [hk1.oracle, hn1.mallocs]
      exact hg _ (by simp [Lexeme.asks, he])
    obtain ⟨w2, a, hrun2, hb2, hk2, hsrc2, hm2, -, hnew, htext, honly⟩ :=
      string_made hb1 (Nat.le_trans hlo hk1.size) hgrant
    refine ⟨cbag1, w2, as1, hb2, hk1.trans hk2 (Nat.le_refl lo), hsrc2.trans hsrc1, a, ?_, htext, hnew,
      honly ho1, by rw [hm2, hn1.mallocs]⟩
    exact (hrun charBagToString).trans (M.bind_ok hrun2)

/-! ## The function -/

/-- The text `s` in the block `a` is what is alive from `lo` on. -/
def NewText (lo : Nat) (h : Store Cell) (a : Addr) (s : Bytes) : Prop :=
  lo ≤ a ∧ h.get? a = some (.text (s ++ [0])) ∧ ∀ x, lo ≤ x → x ≠ a → h.get? x = none

/-- Nothing is alive from `lo` on. -/
def NoneNew (lo : Nat) (h : Store Cell) : Prop := ∀ x, lo ≤ x → h.get? x = none

/-- The file behind a lexeme. -/
def Src.behind (s : Src) (r : Lexeme) : Src := { s with input := r.2.1, offset := r.2.2 }

theorem only_released {lo : Nat} {h h' : Store Cell} {as : List Addr} {a : Addr} (ha : a ∉ as)
    (ho : Only lo h (a :: as)) (hr : ∀ x, h'.get? x = if x ∈ as then none else h.get? x) :
    lo ≤ a ∧ h'.get? a = h.get? a ∧ ∀ x, lo ≤ x → x ≠ a → h'.get? x = none := by
  refine ⟨ho.1 a List.mem_cons_self, by rw [hr, if_neg ha], fun x hx hne => ?_⟩
  rw [hr]
  split
  · rfl
  · next hm => exact ho.2 x hx (by simp [hne, hm])

/-- What `jReadString` does once the bag holds `text`. -/
theorem rest_run {handle : RSHandle} (hb : Bag w.heap cbag as text) (ho : Only lo w.heap as)
    (hlo : lo ≤ w.heap.size) (hn : Counted start w as text) {r : Lexeme}
    (hr : lex handle.endCheck false w.input w.offset = r) (hg : Granted w.oracle start (r.asks text))
    (hlast : r.1.2 = none → handle.firstChar ≠ ch '"' →
      w.oracle (start + leafCount (text ++ r.1.1).length) = true) :
    ∃ w', Kept lo w w' ∧
      match r.1.2 with
      | some e => ∃ a, jReadString.rest charBagToString handle cbag w =
          .ok ((true, { handle with endSignal := e, string := some a }), w') ∧
          w'.toSrc = w.toSrc.behind r ∧ NewText lo w'.heap a (text ++ r.1.1) ∧
          w'.mallocs = start + leafCount (text ++ r.1.1).length + 1
      | none =>
        if handle.firstChar = ch '"' then
          jReadString.rest charBagToString handle cbag w = .ok ((false, handle), w') ∧
            w'.toSrc = (w.toSrc.behind r).report "unexpected EOF" ∧ NoneNew lo w'.heap ∧
            w'.mallocs = start + leafCount (text ++ r.1.1).length
        else ∃ a, jReadString.rest charBagToString handle cbag w =
            .ok ((true, { handle with string := some a }), w') ∧
          w'.toSrc = w.toSrc.behind r ∧ NewText lo w'.heap a (text ++ r.1.1) ∧
          w'.mallocs = start + leafCount (text ++ r.1.1).length + 1 := by
  have hloop := readLoop_run hb ho hlo hn (hr ▸ hg) (Nat.lt_succ_self _)
  rw [hr] at hloop
  obtain ⟨cbag1, w1, as1, hb1, hk1, hsrc1, hres⟩ := hloop
  unfold jReadString.rest
  rw [M.run_bind]
  cases hend : r.1.2 with
  | some e =>
    rw [hend] at hres
    obtain ⟨a, hrun, htext, hnew, ho1, hm1⟩ := hres
    obtain ⟨cbag2, w2, hclean, hk2, hsrc2, hm2, hget2⟩ :=
      bag_emptied hb1 fun x hx => ho1.1 x (List.mem_cons_of_mem _ hx)
    obtain ⟨hloa, hsame, honly⟩ := only_released hnew ho1 hget2
    refine ⟨w2, hk1.trans hk2 (Nat.le_refl lo), a, ?_, hsrc2.trans hsrc1, ⟨hloa, hsame.trans htext, honly⟩,
      hm2.trans hm1⟩
    rw [hrun]
    dsimp only
    rw [if_pos rfl, M.bind_ok hclean]
    rfl
  | none =>
    rw [hend] at hres
    obtain ⟨hrun, ho1, hn1⟩ := hres
    rw [hrun]
    dsimp only
    rw [if_neg (by simp)]
    by_cases hq : handle.firstChar = ch '"'
    · simp only [if_pos hq]
      rw [M.bind_ok (report_run _ w1)]
      obtain ⟨w2, hw2⟩ : ∃ w2, w2 = { w1 with toSrc := w1.toSrc.report "unexpected EOF" } := ⟨_, rfl⟩
      have hb2 : Bag w2.heap cbag1 as1 (text ++ r.1.1) := by rw [hw2]; exact hb1
      have ho2 : Only lo w2.heap as1 := by rw [hw2]; exact ho1
      have hk2 : Kept lo w1 w2 := by rw [hw2]; exact .src lo w1 _
      obtain ⟨cbag3, w3, hclean, hk3, hsrc3, hm3, hget3⟩ := bag_emptied hb2 ho2.1
      refine ⟨w3, (hk1.trans hk2 (Nat.le_refl lo)).trans hk3 (Nat.le_refl lo), ?_, ?_, fun x hx => ?_, ?_⟩
      · rw [← hw2, M.bind_ok hclean]
        rfl
      · rw [hsrc3, hw2]
        exact congrArg (fun s : Src => s.report "unexpected EOF") hsrc1
      · rw [hget3]
        split
        · rfl
        · next hm => exact ho2.2 x hx hm
      · rw [hm3, hw2]
        exact hn1.mallocs
    · simp only [if_neg hq]
      obtain ⟨w2, a, hrun2, hb2, hk2, hsrc2, hm2, -, hnew, htext, honly⟩ :=
        string_made hb1 (Nat.le_trans hlo hk1.size)
          (by rw [hk1.oracle, hn1.mallocs]; exact hlast hend hq)
      have ho2 := honly ho1
      obtain ⟨cbag3, w3, hclean, hk3, hsrc3, hm3, hget3⟩ := bag_emptied hb2 ho1.1
      obtain ⟨hloa, hsame, honly3⟩ := only_released hnew ho2 hget3
      refine ⟨w3, (hk1.trans hk2 (Nat.le_refl lo)).trans hk3 (Nat.le_refl lo), a, ?_,
        (hsrc3.trans hsrc2).trans hsrc1, ⟨hloa, hsame.trans htext, honly3⟩, ?_⟩
      · rw [M.bind_ok hrun2, M.bind_ok hclean]
        rfl
      · rw [hm3, hm2, hn1.mallocs]

/-- The string of a text that the end of the file ends is refused. -/
theorem rest_refused {handle : RSHandle} (hb : Bag w.heap cbag as text) (ho : Only lo w.heap as)
    (hlo : lo ≤ w.heap.size) (hn : Counted start w as text) {r : Lexeme}
    (hr : lex handle.endCheck false w.input w.offset = r) (hend : r.1.2 = none)
    (hq : handle.firstChar ≠ ch '"') (hg : Granted w.oracle start (leafCount (text ++ r.1.1).length))
    (hlast : w.oracle (start + leafCount (text ++ r.1.1).length) = false) :
    ∃ w', Kept lo w w' ∧ jReadString.rest charBagToString handle cbag w = .ok ((false, handle), w') ∧
      w'.toSrc = w.toSrc.behind r := by
  have hasks : r.asks text = leafCount (text ++ r.1.1).length := by simp [Lexeme.asks, hend]
  have hloop := readLoop_run hb ho hlo hn (by rw [hr, hasks]; exact hg) (Nat.lt_succ_self _)
  rw [hr] at hloop
  obtain ⟨cbag1, w1, as1, hb1, hk1, hsrc1, hres⟩ := hloop
  rw [hend] at hres
  obtain ⟨hrun, ho1, hn1⟩ := hres
  have hfail := charBagToString_fail hb1 (by rw [hk1.oracle, hn1.mallocs]; exact hlast)
  have hb2 : Bag { w1 with mallocs := w1.mallocs + 1 }.heap cbag1 as1 (text ++ r.1.1) := hb1
  obtain ⟨cbag2, w2, hclean, hk2, hsrc2, -⟩ := bag_emptied hb2 ho1.1
  refine ⟨w2, hk1.trans ⟨hk2.size, hk2.frame, hk2.oracle, hk2.stdout⟩ (Nat.le_refl lo), ?_,
    hsrc2.trans hsrc1⟩
  unfold jReadString.rest
  rw [M.run_bind, hrun]
  dsimp only
  rw [if_neg (by simp), if_neg hq, M.bind_ok hfail, M.bind_ok hclean]
  rfl

theorem counted_init (w : World) : Counted w.mallocs w [] [] := ⟨rfl, rfl⟩

/-- A lexeme in quotes, from behind the first quote. -/
theorem readQuoted_run {t : Bytes} {e : Option UInt8} {s' : Src}
    (hl : w.toSrc.lex endCheckForQuoted = ((t, e), s')) (hg : w.Grants (Reader.quotedRequests w.toSrc)) :
    ∃ w', Kept w.heap.size w w' ∧ w'.mallocs = w.mallocs + (Reader.quotedRequests w.toSrc).length ∧
      match e with
      | some e => ∃ a, jReadString (readStringInit (ch '"')) w =
          .ok ((true, { readStringInit (ch '"') with endSignal := e, string := some a }), w') ∧
          w'.toSrc = s' ∧ NewText w.heap.size w'.heap a t
      | none => jReadString (readStringInit (ch '"')) w =
          .ok ((false, readStringInit (ch '"')), w') ∧
          w'.toSrc = s'.report "unexpected EOF" ∧ NoneNew w.heap.size w'.heap := by
  obtain ⟨h1, rfl⟩ := Prod.mk.inj hl
  have hend : (readStringInit (ch '"')).endCheck = endCheckForQuoted := rfl
  have hlen : (Reader.quotedRequests w.toSrc).length =
      (lex endCheckForQuoted false w.input w.offset).asks [] := by
    unfold Reader.quotedRequests Lexeme.asks
    rw [hl, h1]
    cases e <;> simp [leafRequests]
  rw [World.Grants, hlen] at hg
  obtain ⟨w', hk, hres⟩ := @rest_run w w.heap.size [] [] initializeCharBag w.mallocs
    (readStringInit (ch '"')) (bag_init _) (only_empty _) (Nat.le_refl _) (counted_init w) _ rfl hg
    fun _ hq => absurd rfl hq
  have hrun : jReadString (readStringInit (ch '"')) w =
      jReadString.rest charBagToString (readStringInit (ch '"')) initializeCharBag w := rfl
  rw [hend, h1] at hres
  rw [hrun, hlen]
  unfold Lexeme.asks
  rw [h1]
  refine ⟨w', hk, ?_⟩
  cases e with
  | some e =>
    obtain ⟨a, hrest, hsrc, hnew, hm⟩ := hres
    exact ⟨by simpa [Nat.add_assoc] using hm, a, hrest, hsrc, hnew⟩
  | none =>
    obtain ⟨hrest, hsrc, hnew, hm⟩ := hres
    exact ⟨by simpa using hm, hrest, hsrc, hnew⟩

/-- The first character of an unquoted lexeme goes into the bag. -/
theorem readFirst_run (w : World) {c : UInt8} (hc : c ≠ ch '"') :
    ∃ cbag1 w1 as1, (∀ toString, jReadString.whole toString (readStringInit c) w =
        jReadString.rest toString (readStringInit c) cbag1 w1) ∧
      Bag w1.heap cbag1 as1 [c] ∧ Only w.heap.size w1.heap as1 ∧ Kept w.heap.size w w1 ∧
      w1.toSrc = w.toSrc ∧ Counted w.mallocs w1 as1 [c] := by
  have hc' : (readStringInit c).firstChar ≠ ch '"' := hc
  have hnone : Granted w.oracle w.mallocs (leafCount ([] ++ [c]).length) := fun i hi =>
    absurd hi (by simp [leafCount])
  obtain ⟨cbag1, w1, as1, hrun1, hb1, ho1, hk1, hsrc1, hn1⟩ :=
    addChar_granted (bag_init _) (only_empty _) (Nat.le_refl _) (counted_init w) c hnone
  refine ⟨cbag1, w1, as1, fun toString => ?_, hb1, ho1, hk1, hsrc1, hn1⟩
  unfold jReadString.whole
  rw [if_pos hc']
  exact M.bind_ok hrun1

/-- A lexeme without quotes, from behind its first character. -/
theorem readUnquoted_run {c : UInt8} (hc : c ≠ ch '"') {t : Bytes} {e : Option UInt8} {s' : Src}
    (hl : w.toSrc.lex endCheckForUnquoted = ((t, e), s')) (hg : w.Grants (Reader.bareRequests w.toSrc)) :
    ∃ w' a, Kept w.heap.size w w' ∧ jReadString (readStringInit c) w =
        .ok ((true, { readStringInit c with endSignal := e.getD 0, string := some a }), w') ∧
      w'.toSrc = s' ∧ NewText w.heap.size w'.heap a (c :: t) ∧
      w'.mallocs = w.mallocs + (Reader.bareRequests w.toSrc).length := by
  obtain ⟨h1, rfl⟩ := Prod.mk.inj hl
  have hc' : (readStringInit c).firstChar ≠ ch '"' := hc
  have hend : (readStringInit c).endCheck = endCheckForUnquoted := if_neg hc
  obtain ⟨cbag1, w1, as1, hrun, hb1, ho1, hk1, hsrc1, hn1⟩ := readFirst_run w hc
  have hlen : (Reader.bareRequests w.toSrc).length = leafCount ([c] ++ t).length + 1 := by
    unfold Reader.bareRequests
    rw [hl]
    cases e <;> simp [leafRequests, Nat.add_comm]
  rw [World.Grants, hlen, ← hk1.oracle] at hg
  have hr : lex (readStringInit c).endCheck false w1.input w1.offset =
      ((t, e), (lex endCheckForUnquoted false w.input w.offset).2) := by
    rw [hend, hsrc1, ← h1]
  obtain ⟨w', hk, hres⟩ := rest_run hb1 ho1 hk1.size hn1 hr
    (hg.mono (by unfold Lexeme.asks; dsimp only; split <;> omega)) fun _ _ => hg _ (Nat.lt_succ_self _)
  rw [jReadString, hrun, hlen]
  rw [hsrc1] at hres
  cases e with
  | some e =>
    obtain ⟨a, hrest, hsrc, hnew, hm⟩ := hres
    exact ⟨w', a, hk1.trans hk (Nat.le_refl _), hrest, hsrc, hnew, hm⟩
  | none =>
    dsimp only at hres
    rw [if_neg hc'] at hres
    obtain ⟨a, hrest, hsrc, hnew, hm⟩ := hres
    exact ⟨w', a, hk1.trans hk (Nat.le_refl _), hrest, hsrc, hnew, hm⟩

theorem World.Grants.left {rs rs' : List Request} (h : w.Grants (rs ++ rs')) : w.Grants rs :=
  Granted.mono h (by simp)

/-- What is left to grant when a part was asked for. -/
theorem World.Grants.right {w1 : World} {rs rs' : List Request} (h : w.Grants (rs ++ rs'))
    (ho : w1.oracle = w.oracle) (hm : w1.mallocs = w.mallocs + rs.length) : w1.Grants rs' := by
  intro i hi
  rw [ho, hm, Nat.add_assoc]
  exact h (rs.length + i) (by simpa using hi)

theorem World.Grants.tail {w1 : World} {r : Request} {rs : List Request} (h : w.Grants (r :: rs))
    (ho : w1.oracle = w.oracle) (hm : w1.mallocs = w.mallocs + 1) : w1.Grants rs :=
  @World.Grants.right w w1 [r] rs h ho hm

theorem World.Grants.head {r : Request} {rs : List Request} (h : w.Grants (r :: rs)) :
    w.oracle w.mallocs = true := h 0 (Nat.succ_pos _)

/-- The first of the requests `rs` that is refused is one the parser heeds. -/
def World.Refuses (w : World) (rs : List Request) : Prop :=
  ∃ k r, rs[k]? = some r ∧ r.heeded = true ∧ Granted w.oracle w.mallocs k ∧
    w.oracle (w.mallocs + k) = false

/-- Leaves are not heeded. -/
theorem heeded_last {n k : Nat} {x r : Request} (hk : (leafRequests n ++ [x])[k]? = some r)
    (hr : r.heeded = true) : k = leafCount n ∧ r = x := by
  have hlen : (leafRequests n).length = leafCount n := List.length_replicate
  rcases Nat.lt_or_ge k (leafCount n) with hlt | hge
  · rw [List.getElem?_append_left (by omega)] at hk
    rw [List.eq_of_mem_replicate (List.mem_of_getElem? hk)] at hr
    cases hr
  · rw [List.getElem?_append_right (by omega), hlen] at hk
    have hzero : k - leafCount n = 0 := by
      by_contra hne
      rw [List.getElem?_eq_none (by simp; omega)] at hk
      cases hk
    rw [hzero] at hk
    exact ⟨by omega, (Option.some.inj hk).symm⟩

/-- **The string of an unquoted lexeme is refused** where the parser heeds it: at the end of the file. -/
theorem readUnquoted_refused {c : UInt8} (hc : c ≠ ch '"') (hf : w.Refuses (Reader.bareRequests w.toSrc)) :
    ∃ w', Kept w.heap.size w w' ∧
      jReadString (readStringInit c) w = .ok ((false, readStringInit c), w') ∧ w'.pe = w.pe := by
  have hend : (readStringInit c).endCheck = endCheckForUnquoted := if_neg hc
  obtain ⟨cbag1, w1, as1, hrun, hb1, ho1, hk1, hsrc1, hn1⟩ := readFirst_run w hc
  obtain ⟨⟨t, e⟩, s', hl⟩ : ∃ r s', w.toSrc.lex endCheckForUnquoted = (r, s') := ⟨_, _, rfl⟩
  obtain ⟨h1, -⟩ := Prod.mk.inj hl
  obtain ⟨k, r, hk, hr, hgrant, hrefused⟩ := hf
  unfold Reader.bareRequests at hk
  rw [hl] at hk
  cases e with
  | some e =>
    obtain ⟨-, rfl⟩ := heeded_last hk hr
    cases hr
  | none =>
    obtain ⟨rfl, -⟩ := heeded_last hk hr
    have hlex : lex (readStringInit c).endCheck false w1.input w1.offset =
        ((t, none), (lex endCheckForUnquoted false w.input w.offset).2) := by
      rw [hend, hsrc1, ← h1]
    have hcount : ([c] ++ t).length = t.length + 1 := by simp
    obtain ⟨w', hk', hrest, hsrc⟩ := rest_refused hb1 ho1 hk1.size hn1 hlex rfl hc
      (by rw [hcount, hk1.oracle]; exact hgrant) (by rw [hcount, hk1.oracle]; exact hrefused)
    refine ⟨w', hk1.trans hk' (Nat.le_refl _), (hrun _).trans hrest, ?_⟩
    rw [hsrc, ← hsrc1]
    rfl

end JsonDom
