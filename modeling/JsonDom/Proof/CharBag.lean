import JsonDom.Model.CharBag
import JsonDom.Proof.Memory

/-!
# Character bags

`Bag h charBag as text`: the leaves of the bag behind the root leaf are at the addresses `as`, in
this order, all but the last leaf are full, and the characters in them are `text`. Adding a
character (`addCharToBag_run`), reading the text (`charBagToString_run`) and releasing the leaves
(`charBagCleanup_run`) are what they are for the text, whichever allocations fail.
-/

namespace JsonDom

open Lib

/-- The leaves from the pointer `p` on, up to the pointer `q`. -/
def Leaves (h : Store Cell) (q : Ptr) : Ptr → List (Addr × CharBagLeaf) → Prop
  | p, [] => p = q
  | p, (a, l) :: ls => p = some a ∧ h.get? a = some (.leaf l) ∧ Leaves h q l.next ls

namespace Leaves

variable {h h' : Store Cell} {p q : Ptr} {a : Addr} {l : CharBagLeaf}
  {ls : List (Addr × CharBagLeaf)}

theorem snoc : Leaves h q p (ls ++ [(a, l)]) ↔
    Leaves h (some a) p ls ∧ h.get? a = some (.leaf l) ∧ l.next = q := by
  induction ls generalizing p with
  | nil => simp only [List.nil_append, Leaves]
  | cons x ls ih => simp only [List.cons_append, Leaves, ih, and_assoc]

theorem congr (hl : Leaves h q p ls) (hx : ∀ x ∈ ls.map Prod.fst, h'.get? x = h.get? x) :
    Leaves h' q p ls := by
  induction ls generalizing p with
  | nil => exact hl
  | cons x ls ih =>
    simp only [List.map_cons, List.forall_mem_cons] at hx
    exact ⟨hl.1, hx.1.trans hl.2.1, ih hl.2.2 hx.2⟩

theorem live (hl : Leaves h q p ls) : ∀ x ∈ ls, h.get? x.1 = some (.leaf x.2) := by
  induction ls generalizing p with
  | nil => exact fun x hx => absurd hx List.not_mem_nil
  | cons x ls ih => exact List.forall_mem_cons.2 ⟨hl.2.1, ih hl.2.2⟩

end Leaves

/-- The characters in a leaf. -/
def CharBagLeaf.chars (l : CharBagLeaf) : Bytes := l.buff.take l.indexNextChar

/-- The leaves of a bag with their addresses; the root leaf has none. -/
structure BagLeaves (h : Store Cell) (charBag : CharBag) (ls : List (Addr × CharBagLeaf)) : Prop where
  chain : Leaves h none charBag.rootLeaf.next ls
  nodup : (ls.map Prod.fst).Nodup
  cur : charBag.curLeaf = (ls.map Prod.fst).getLast?
  fits : ∀ l ∈ charBag.rootLeaf :: ls.map Prod.snd,
    l.buff.length = cbLeafSize ∧ l.indexNextChar ≤ cbLeafSize
  full : ∀ l ∈ (charBag.rootLeaf :: ls.map Prod.snd).dropLast, l.indexNextChar = cbLeafSize

def Bag (h : Store Cell) (charBag : CharBag) (as : List Addr) (text : Bytes) : Prop :=
  ∃ ls, BagLeaves h charBag ls ∧ as = ls.map Prod.fst ∧
    text = (charBag.rootLeaf :: ls.map Prod.snd).flatMap CharBagLeaf.chars

theorem zeroLeaf_fits : zeroLeaf.buff.length = cbLeafSize ∧ zeroLeaf.indexNextChar ≤ cbLeafSize :=
  ⟨by simp [zeroLeaf], by simp [zeroLeaf]⟩

theorem bag_init (h : Store Cell) : Bag h initializeCharBag [] [] :=
  ⟨[], ⟨rfl, List.nodup_nil, rfl, by simpa [initializeCharBag] using zeroLeaf_fits, by simp⟩, rfl,
    by simp [initializeCharBag, CharBagLeaf.chars, zeroLeaf]⟩

variable {w : World} {charBag : CharBag} {as : List Addr} {text : Bytes}

theorem BagLeaves.lt_size {h : Store Cell} {ls : List (Addr × CharBagLeaf)}
    (hb : BagLeaves h charBag ls) : ∀ a ∈ ls.map Prod.fst, a < h.size := by
  intro a ha
  obtain ⟨x, hx, rfl⟩ := List.mem_map.1 ha
  exact Store.lt_size (hb.chain.live x hx)

theorem CharBagLeaf.chars_length {l : CharBagLeaf}
    (hl : l.buff.length = cbLeafSize ∧ l.indexNextChar ≤ cbLeafSize) :
    l.chars.length = l.indexNextChar := by
  rw [CharBagLeaf.chars, List.length_take, hl.1]
  omega

/-- All leaves but the last are full. -/
theorem BagLeaves.text_length {h : Store Cell} {ls : List (Addr × CharBagLeaf)} {init : List CharBagLeaf}
    {cur : CharBagLeaf} (hb : BagLeaves h charBag ls)
    (hL : charBag.rootLeaf :: ls.map Prod.snd = init ++ [cur]) :
    ((charBag.rootLeaf :: ls.map Prod.snd).flatMap CharBagLeaf.chars).length =
      cbLeafSize * ls.length + cur.indexNextChar := by
  have hfits := hb.fits
  have hfull := hb.full
  have hlen := congrArg List.length hL
  rw [hL] at hfits hfull ⊢
  rw [List.dropLast_concat] at hfull
  simp only [List.length_cons, List.length_map, List.length_append, List.length_nil] at hlen
  have hinit : (init.map fun l => l.chars.length) = List.replicate ls.length cbLeafSize := by
    rw [List.eq_replicate_iff]
    refine ⟨by simpa using hlen.symm, fun n hn => ?_⟩
    obtain ⟨l, hl, rfl⟩ := List.mem_map.1 hn
    rw [CharBagLeaf.chars_length (hfits l (List.mem_append_left _ hl)), hfull l hl]
  have hcur := CharBagLeaf.chars_length (hfits cur (by simp))
  simp only [List.flatMap_append, List.length_append, List.length_flatMap, List.flatMap_singleton, hinit, hcur]
  rw [List.sum_replicate_nat, Nat.mul_comm]

/-- What is behind the current leaf can be read and written. -/
theorem BagLeaves.current {h : Store Cell} {ls : List (Addr × CharBagLeaf)}
    (hb : BagLeaves h charBag ls) :
    ∃ init cur, charBag.rootLeaf :: ls.map Prod.snd = init ++ [cur] ∧ cur.next = none ∧
      (∀ w : World, w.heap = h → getLeaf charBag charBag.curLeaf w = .ok (cur, w)) ∧
      ∀ l', ∃ charBag' h' ls',
        (∀ w : World, w.heap = h → putLeaf charBag charBag.curLeaf l' w =
          .ok (charBag', { w with heap := h' })) ∧
        charBag'.rootLeaf :: ls'.map Prod.snd = init ++ [l'] ∧
        charBag'.curLeaf = charBag.curLeaf ∧ ls'.map Prod.fst = ls.map Prod.fst ∧
        Leaves h' l'.next charBag'.rootLeaf.next ls' ∧ h'.size = h.size ∧
        (∀ x, x ∉ ls.map Prod.fst → h'.get? x = h.get? x) := by
  have hcur := hb.cur
  rcases List.eq_nil_or_concat ls with rfl | ⟨init, ⟨a, l⟩, rfl⟩
  · obtain ⟨root, cur⟩ := charBag
    obtain rfl : cur = none := hcur
    exact ⟨[], root, rfl, hb.chain, fun _ _ => rfl, fun l' =>
      ⟨⟨l', none⟩, h, [], fun w hw => by rw [← hw]; rfl, rfl, rfl, rfl, rfl, rfl, fun _ _ => rfl⟩⟩
  · rw [List.concat_eq_append] at hb hcur ⊢
    obtain ⟨hchain, hget, hnext⟩ := Leaves.snoc.1 hb.chain
    have hsome : charBag.curLeaf = some a := by simpa using hcur
    have hnodup := hb.nodup
    rw [List.map_append, List.nodup_append] at hnodup
    refine ⟨charBag.rootLeaf :: init.map Prod.snd, l, by simp, hnext, fun w hw => ?_, fun l' => ?_⟩
    · rw [hsome, getLeaf, M.bind_ok (load_run w (hw ▸ hget))]
      rfl
    · refine ⟨charBag, h.put a (.leaf l'), init ++ [(a, l')], fun w hw => ?_, by simp, rfl, by simp,
        Leaves.snoc.2 ⟨hchain.congr fun x hx => Store.get?_put_ne ?_, ?_, rfl⟩,
        Store.size_put _ _ _, fun x hx => Store.get?_put_ne ?_⟩
      · rw [hsome, putLeaf, M.bind_ok (store_run w (hw ▸ hget) _), hw]
        rfl
      · exact hnodup.2.2 x hx a (by simp)
      · exact Store.get?_put_self (Store.lt_size hget)
      · rintro rfl
        exact hx (by simp)

/-! ## Adding a character -/

/-- What the operations on a bag leave alone: everything but the leaves of the bag. -/
structure Kept (lo : Nat) (w w' : World) : Prop where
  size : w.heap.size ≤ w'.heap.size
  frame : ∀ x < lo, w'.heap.get? x = w.heap.get? x
  oracle : w'.oracle = w.oracle
  stdout : w'.stdout = w.stdout

theorem Kept.refl (lo : Nat) (w : World) : Kept lo w w := ⟨Nat.le_refl _, fun _ _ => rfl, rfl, rfl⟩

theorem Kept.trans {lo lo' : Nat} {w w' w'' : World} (h1 : Kept lo w w') (h2 : Kept lo' w' w'')
    (hlo : lo ≤ lo') : Kept lo w w'' where
  size := Nat.le_trans h1.size h2.size
  frame x hx := (h2.frame x (by omega)).trans (h1.frame x hx)
  oracle := h2.oracle.trans h1.oracle
  stdout := h2.stdout.trans h1.stdout

/-- The leaves `as` are what is alive from `lo` on. -/
def Only (lo : Nat) (h : Store Cell) (as : List Addr) : Prop :=
  (∀ a ∈ as, lo ≤ a) ∧ ∀ x, lo ≤ x → x ∉ as → h.get? x = none

theorem only_empty (h : Store Cell) : Only h.size h [] :=
  ⟨fun _ hx => absurd hx List.not_mem_nil, fun _ hx _ => Store.get?_size_le hx⟩

/-- A leaf with one more character. -/
def CharBagLeaf.save (l : CharBagLeaf) (c : UInt8) : CharBagLeaf :=
  { l with buff := l.buff.set l.indexNextChar c, indexNextChar := l.indexNextChar + 1 }

theorem CharBagLeaf.save_chars {l : CharBagLeaf} {c : UInt8} (hl : l.buff.length = cbLeafSize)
    (hi : l.indexNextChar < cbLeafSize) : (l.save c).chars = l.chars ++ [c] := by
  unfold CharBagLeaf.chars CharBagLeaf.save
  rw [← hl] at hi
  rw [List.take_add_one, List.take_set_of_le (Nat.le_refl _), List.getElem?_set_self hi]
  rfl

theorem CharBagLeaf.save_fits {l : CharBagLeaf} {c : UInt8} (hl : l.buff.length = cbLeafSize)
    (hi : l.indexNextChar < cbLeafSize) :
    (l.save c).buff.length = cbLeafSize ∧ (l.save c).indexNextChar ≤ cbLeafSize :=
  ⟨by simp [save, hl], hi⟩

theorem saveChar_run {p : Ptr} {l : CharBagLeaf} {c : UInt8} {charBag' : CharBag} {w' : World}
    (hget : getLeaf charBag p w = .ok (l, w)) (hi : l.indexNextChar < cbLeafSize)
    (hput : putLeaf charBag p (l.save c) w = .ok (charBag', w')) :
    saveChar charBag p c w = .ok (charBag', w') := by
  unfold saveChar
  rw [M.bind_ok hget, if_pos hi]
  exact hput

/-- How a character got into a bag with the leaves `as`: there was room for it, or a leaf was asked for. -/
def Asked (w w' : World) (as as' : List Addr) (n : Nat) (ok : Bool) : Prop :=
  n < cbLeafSize * (as.length + 1) ∧ ok = true ∧ w'.mallocs = w.mallocs ∧ as'.length = as.length ∨
    n = cbLeafSize * (as.length + 1) ∧ ok = w.oracle w.mallocs ∧ w'.mallocs = w.mallocs + 1 ∧
      (ok = true → as'.length = as.length + 1)

/-- The current leaf is written again, still as the last one. -/
theorem BagLeaves.rewrite {h : Store Cell} {ls : List (Addr × CharBagLeaf)} {init : List CharBagLeaf}
    {cur l' : CharBagLeaf} (hb : BagLeaves h charBag ls)
    (hL : charBag.rootLeaf :: ls.map Prod.snd = init ++ [cur]) (hnext : l'.next = none)
    (hl' : l'.buff.length = cbLeafSize ∧ l'.indexNextChar ≤ cbLeafSize) :
    ∃ charBag' h' ls',
      (∀ w : World, w.heap = h → putLeaf charBag charBag.curLeaf l' w =
        .ok (charBag', { w with heap := h' })) ∧
      BagLeaves h' charBag' ls' ∧ ls'.map Prod.fst = ls.map Prod.fst ∧
      charBag'.rootLeaf :: ls'.map Prod.snd = init ++ [l'] ∧ h'.size = h.size ∧
      ∀ x, x ∉ ls.map Prod.fst → h'.get? x = h.get? x := by
  obtain ⟨init0, cur0, hL0, -, -, hput⟩ := hb.current
  obtain ⟨rfl, -⟩ := List.append_inj' (hL.symm.trans hL0) rfl
  obtain ⟨charBag', h', ls', hrun, hL', hcur', hfst, hleaves, hsize, hframe⟩ := hput l'
  have hfits := hb.fits
  have hfull := hb.full
  rw [hL] at hfits hfull
  rw [List.dropLast_concat] at hfull
  refine ⟨charBag', h', ls', hrun, ⟨hnext ▸ hleaves, hfst ▸ hb.nodup, by rw [hcur', hfst, hb.cur], ?_, ?_⟩,
    hfst, hL', hsize, hframe⟩
  · rw [hL', List.forall_mem_append]
    exact ⟨(List.forall_mem_append.1 hfits).1, by simpa using hl'⟩
  · rw [hL', List.dropLast_concat]
    exact hfull

/-- A leaf `a` is hung behind the current one, which is full. -/
theorem BagLeaves.extend {h h' : Store Cell} {charBag' : CharBag} {ls ls' : List (Addr × CharBagLeaf)}
    {init : List CharBagLeaf} {cur l : CharBagLeaf} {a : Addr} (hb : BagLeaves h charBag ls)
    (hL : charBag.rootLeaf :: ls.map Prod.snd = init ++ [cur]) (hfull : cbLeafSize ≤ cur.indexNextChar)
    (hleaves : Leaves h' (some a) charBag'.rootLeaf.next ls') (hfst : ls'.map Prod.fst = ls.map Prod.fst)
    (hL' : charBag'.rootLeaf :: ls'.map Prod.snd = init ++ [{ cur with next := some a }])
    (ha : a ∉ ls.map Prod.fst) (hget : h'.get? a = some (.leaf l)) (hnext : l.next = none)
    (hl : l.buff.length = cbLeafSize ∧ l.indexNextChar ≤ cbLeafSize) :
    BagLeaves h' { charBag' with curLeaf := some a } (ls' ++ [(a, l)]) := by
  have hfits := hb.fits
  have hinit := hb.full
  rw [hL] at hfits hinit
  rw [List.dropLast_concat] at hinit
  obtain ⟨hfitsInit, hfitsCur⟩ := List.forall_mem_append.1 hfits
  obtain ⟨hcurLen, hcurIdx⟩ := hfitsCur cur List.mem_cons_self
  refine ⟨Leaves.snoc.2 ⟨hleaves, hget, hnext⟩, ?_, by simp, ?_, ?_⟩
  · rw [List.map_append, hfst]
    refine List.nodup_append.2 ⟨hb.nodup, by simp, fun x hx y hy => ?_⟩
    rw [List.mem_singleton.1 hy]
    rintro rfl
    exact ha hx
  · rw [List.map_append, ← List.cons_append, hL', List.forall_mem_append, List.forall_mem_append]
    exact ⟨⟨hfitsInit, by simpa using ⟨hcurLen, hcurIdx⟩⟩, by simpa using hl⟩
  · rw [List.map_append, ← List.cons_append, hL', List.map_singleton, List.dropLast_concat,
      List.forall_mem_append]
    exact ⟨hinit, by simpa using Nat.le_antisymm hcurIdx hfull⟩

/-- The current leaf has room and takes the character. -/
theorem addChar_room {ls : List (Addr × CharBagLeaf)} {init : List CharBagLeaf} {cur : CharBagLeaf}
    (hls : BagLeaves w.heap charBag ls) (hL : charBag.rootLeaf :: ls.map Prod.snd = init ++ [cur])
    (hroom : cur.indexNextChar < cbLeafSize) (c : UInt8) :
    ∃ charBag' h', addCharToBag charBag c w = .ok ((true, charBag'), { w with heap := h' }) ∧
      Bag h' charBag' (ls.map Prod.fst) ((init ++ [cur]).flatMap CharBagLeaf.chars ++ [c]) ∧
      h'.size = w.heap.size ∧ ∀ x, x ∉ ls.map Prod.fst → h'.get? x = w.heap.get? x := by
  obtain ⟨init0, cur0, hL0, hnext, hget, -⟩ := hls.current
  obtain ⟨rfl, hcur0⟩ := List.append_inj' (hL.symm.trans hL0) rfl
  obtain rfl := (List.cons.inj hcur0).1
  have hlen := (hls.fits cur (by rw [hL]; simp)).1
  obtain ⟨charBag', h', ls', hrun, hls', hfst, hL', hsize, hframe⟩ :=
    @BagLeaves.rewrite _ _ _ _ _ (cur.save c) hls hL hnext (CharBagLeaf.save_fits hlen hroom)
  refine ⟨charBag', h', ?_, ⟨ls', hls', hfst.symm, ?_⟩, hsize, hframe⟩
  · unfold addCharToBag
    rw [M.bind_ok (hget w rfl), if_neg (Nat.not_le_of_lt hroom),
      M.bind_ok (saveChar_run (hget w rfl) hroom (hrun w rfl))]
    rfl
  · rw [hL', List.flatMap_append, List.flatMap_append, List.append_assoc]
    simp [CharBagLeaf.save_chars hlen hroom]

/-- Writing to a leaf what is there. -/
theorem putLeaf_same {p : Ptr} {l : CharBagLeaf} {w' : World} (hget : getLeaf charBag p w = .ok (l, w))
    (hw : w'.heap = w.heap) : putLeaf charBag p l w' = .ok (charBag, w') := by
  cases p with
  | none =>
    cases hget
    rfl
  | some a =>
    obtain ⟨c, w1, hload, hleaf⟩ := M.bind_eq_ok hget
    have hcell : w.heap.get? a = some (.leaf l) := by
      unfold load at hload
      dsimp only at hload
      split at hload
      · next c' hc =>
        cases hload
        rw [hc]
        cases c with
        | leaf =>
          cases hleaf
          rfl
        | node | text | var => cases hleaf
      · cases hload
    rw [putLeaf, M.bind_ok (store_run w' (hw ▸ hcell) _), hw, Store.put_self hcell, ← hw]
    rfl

/-- The current leaf is full and the next one is refused: it gets the `next` it has. -/
theorem addChar_refused {ls : List (Addr × CharBagLeaf)} {init : List CharBagLeaf} {cur : CharBagLeaf}
    (hls : BagLeaves w.heap charBag ls) (hL : charBag.rootLeaf :: ls.map Prod.snd = init ++ [cur])
    (hfull : cbLeafSize ≤ cur.indexNextChar) (hw : w.oracle w.mallocs = false) (c : UInt8) :
    addCharToBag charBag c w = .ok ((false, charBag), { w with mallocs := w.mallocs + 1 }) := by
  obtain ⟨init0, cur0, hL0, hnext, hget, -⟩ := hls.current
  obtain ⟨rfl, hcur0⟩ := List.append_inj' (hL.symm.trans hL0) rfl
  obtain rfl := (List.cons.inj hcur0).1
  have hsame : { cur with next := none } = cur := by rw [← hnext]
  have hput := @putLeaf_same w charBag charBag.curLeaf { cur with next := none }
    { w with mallocs := w.mallocs + 1 } (by rw [hsame]; exact hget w rfl) rfl
  unfold addCharToBag
  rw [M.bind_ok (hget w rfl), if_pos hfull, M.bind_ok (malloc_fail w hw _), M.bind_ok hput]
  rfl

/-- The current leaf is full and a new leaf behind it takes the character. -/
theorem addChar_leaf {ls : List (Addr × CharBagLeaf)} {init : List CharBagLeaf} {cur : CharBagLeaf}
    (hls : BagLeaves w.heap charBag ls) (hL : charBag.rootLeaf :: ls.map Prod.snd = init ++ [cur])
    (hfull : cbLeafSize ≤ cur.indexNextChar) (hw : w.oracle w.mallocs = true) (c : UInt8) :
    ∃ charBag' h', addCharToBag charBag c w =
        .ok ((true, charBag'), { w with heap := h', mallocs := w.mallocs + 1 }) ∧
      Bag h' charBag' (ls.map Prod.fst ++ [w.heap.size]) ((init ++ [cur]).flatMap CharBagLeaf.chars ++ [c]) ∧
      h'.size = w.heap.size + 1 ∧
      ∀ x, x ∉ ls.map Prod.fst → x ≠ w.heap.size → h'.get? x = w.heap.get? x := by
  obtain ⟨init1, cur1, hL1, -, hget, -⟩ := hls.current
  obtain ⟨rfl, hcur1⟩ := List.append_inj' (hL.symm.trans hL1) rfl
  obtain rfl := (List.cons.inj hcur1).1
  have hlt := hls.lt_size
  have hnew : w.heap.size ∉ ls.map Prod.fst := fun hm => absurd (hlt _ hm) (Nat.lt_irrefl _)
  have hls0 : BagLeaves (w.heap.alloc (.leaf zeroLeaf)) charBag ls :=
    { hls with chain := hls.chain.congr fun x hx => Store.get?_alloc_lt (hlt x hx) }
  obtain ⟨init0, cur0, hL0, -, -, hput0⟩ := hls0.current
  obtain ⟨rfl, hcur0⟩ := List.append_inj' (hL.symm.trans hL0) rfl
  obtain rfl := (List.cons.inj hcur0).1
  obtain ⟨charBag', h', ls', hrun, hL', -, hfst, hleaves, hsize, hframe⟩ :=
    hput0 { cur with next := some w.heap.size }
  rw [Store.size_alloc] at hsize
  obtain ⟨w1, hw1⟩ : ∃ w1, w1 =
    { w with heap := w.heap.alloc (.leaf zeroLeaf), mallocs := w.mallocs + 1 } := ⟨_, rfl⟩
  obtain ⟨w2, hw2⟩ : ∃ w2, w2 = { w1 with heap := h' } := ⟨_, rfl⟩
  have hz : w2.heap.get? w.heap.size = some (.leaf zeroLeaf) := by
    rw [hw2]
    exact (hframe _ hnew).trans (Store.get?_alloc_self _ _)
  have hsave : saveChar { charBag' with curLeaf := some w.heap.size } (some w.heap.size) c w2 =
      .ok ({ charBag' with curLeaf := some w.heap.size },
        { w2 with heap := w2.heap.put w.heap.size (.leaf (zeroLeaf.save c)) }) := by
    have hgetz : getLeaf { charBag' with curLeaf := some w.heap.size } (some w.heap.size) w2 =
        .ok (zeroLeaf, w2) := by
      rw [getLeaf, M.bind_ok (load_run w2 hz)]
      rfl
    apply saveChar_run hgetz (by decide)
    rw [putLeaf, M.bind_ok (store_run w2 hz _)]
    rfl
  have hbehind : Leaves (h'.put w.heap.size (.leaf (zeroLeaf.save c))) (some w.heap.size)
      charBag'.rootLeaf.next ls' := by
    refine hleaves.congr fun x hx => Store.get?_put_ne ?_
    rintro rfl
    exact hnew (hfst ▸ hx)
  refine ⟨{ charBag' with curLeaf := some w.heap.size }, h'.put w.heap.size (.leaf (zeroLeaf.save c)), ?_,
    ⟨ls' ++ [(w.heap.size, zeroLeaf.save c)], hls.extend hL hfull hbehind hfst hL' hnew
      (Store.get?_put_self (by omega)) rfl (CharBagLeaf.save_fits zeroLeaf_fits.1 (by decide)),
      by simp [hfst], ?_⟩, by rw [Store.size_put, hsize], fun x hx hne => ?_⟩
  · unfold addCharToBag
    rw [M.bind_ok (hget w rfl), if_pos hfull, M.bind_ok (malloc_run w hw _), ← hw1,
      M.bind_ok (hrun w1 (by rw [hw1])), ← hw2]
    rw [if_pos (by rfl), M.bind_ok hsave, hw2, hw1]
    rfl
  · rw [List.map_append, ← List.cons_append, hL']
    simp only [List.flatMap_append, List.map_singleton, List.flatMap_singleton]
    rw [CharBagLeaf.save_chars zeroLeaf_fits.1 (by decide)]
    rfl
  · rw [Store.get?_put_ne hne, hframe x hx, Store.get?_alloc_ne hne]

/-- **Adding a character** appends it to the text, or changes nothing where the allocation of a leaf
fails. -/
theorem addCharToBag_run {lo : Nat} (hb : Bag w.heap charBag as text) (ho : Only lo w.heap as)
    (hlo : lo ≤ w.heap.size) (c : UInt8) :
    ∃ ok charBag' w' as', addCharToBag charBag c w = .ok ((ok, charBag'), w') ∧
      Bag w'.heap charBag' as' (if ok then text ++ [c] else text) ∧ Only lo w'.heap as' ∧
      Kept lo w w' ∧ w'.toSrc = w.toSrc ∧ Asked w w' as as' text.length ok := by
  obtain ⟨ls, hls, rfl, rfl⟩ := hb
  obtain ⟨init, cur, hL, -⟩ := hls.current
  have hlength := hls.text_length hL
  have hidx := (hls.fits cur (by rw [hL]; simp)).2
  rw [hL] at hlength ⊢
  rw [← @List.length_map _ _ ls Prod.fst] at hlength
  have hold : ∀ x < lo, x ∉ ls.map Prod.fst := fun x hx hm => absurd (ho.1 x hm) (Nat.not_le_of_lt hx)
  by_cases hfull : cbLeafSize ≤ cur.indexNextChar
  · have hn : ((init ++ [cur]).flatMap CharBagLeaf.chars).length =
        cbLeafSize * ((ls.map Prod.fst).length + 1) := by
      rw [hlength, Nat.mul_succ]
      omega
    cases hw : w.oracle w.mallocs with
    | false =>
      exact ⟨false, charBag, _, _, addChar_refused hls hL hfull hw c, ⟨ls, hls, rfl, by rw [hL]; rfl⟩, ho,
        ⟨Nat.le_refl _, fun _ _ => rfl, rfl, rfl⟩, rfl, .inr ⟨hn, hw.symm, rfl, by simp⟩⟩
    | true =>
      obtain ⟨charBag', h', hrun, hb', hsize, hframe⟩ := addChar_leaf hls hL hfull hw c
      refine ⟨true, charBag', _, _, hrun, hb', ⟨?_, fun x hx hm => ?_⟩,
        ⟨by simp [hsize], fun x hx => hframe x (hold x hx) (Nat.ne_of_lt (Nat.lt_of_lt_of_le hx hlo)),
          rfl, rfl⟩, rfl,
        .inr ⟨hn, hw.symm, rfl, fun _ => by simp⟩⟩
      · exact List.forall_mem_append.2 ⟨ho.1, by simpa using hlo⟩
      · rw [List.mem_append, not_or, List.mem_singleton] at hm
        exact (hframe x hm.1 hm.2).trans (ho.2 x hx hm.1)
  · obtain ⟨charBag', h', hrun, hb', hsize, hframe⟩ := addChar_room hls hL (by omega) c
    exact ⟨true, charBag', _, _, hrun, hb', ⟨ho.1, fun x hx hm => (hframe x hm).trans (ho.2 x hx hm)⟩,
      ⟨Nat.le_of_eq hsize.symm, fun x hx => hframe x (hold x hx), rfl, rfl⟩, rfl,
      .inl ⟨by rw [hlength, Nat.mul_succ]; omega, rfl, rfl, rfl⟩⟩

/-- A character is lost only where its leaf is refused, and then nothing is changed. -/
theorem addChar_false {c : UInt8} {charBag' : CharBag} {w' : World} (hb : Bag w.heap charBag as text)
    (hrun : addCharToBag charBag c w = .ok ((false, charBag'), w')) :
    w.oracle w.mallocs = false ∧ charBag' = charBag ∧ w' = { w with mallocs := w.mallocs + 1 } := by
  obtain ⟨ls, hls, -, -⟩ := hb
  obtain ⟨init, cur, hL, -⟩ := hls.current
  by_cases hfull : cbLeafSize ≤ cur.indexNextChar
  · cases hw : w.oracle w.mallocs with
    | false =>
      cases hrun.symm.trans (addChar_refused hls hL hfull hw c)
      exact ⟨rfl, rfl, rfl⟩
    | true =>
      obtain ⟨_, _, hleaf, -⟩ := addChar_leaf hls hL hfull hw c
      cases hrun.symm.trans hleaf
  · obtain ⟨_, _, hroom, -⟩ := addChar_room hls hL (by omega) c
    cases hrun.symm.trans hroom

/-! ## Reading the text -/

theorem getLeaf_run {a : Addr} {l : CharBagLeaf} (h : w.heap.get? a = some (.leaf l)) :
    getLeaf charBag (some a) w = .ok (l, w) := by
  rw [getLeaf, M.bind_ok (load_run w h)]
  rfl

theorem countChars_run {fuel : Nat} {l : CharBagLeaf} {ls : List (Addr × CharBagLeaf)}
    (hc : Leaves w.heap none l.next ls) (hf : ls.length < fuel)
    (hfits : ∀ l' ∈ l :: ls.map Prod.snd,
      l'.buff.length = cbLeafSize ∧ l'.indexNextChar ≤ cbLeafSize) :
    countChars charBag fuel l w =
      .ok (((l :: ls.map Prod.snd).flatMap CharBagLeaf.chars).length, w) := by
  induction fuel generalizing l ls with
  | zero => omega
  | succ fuel ih =>
    obtain ⟨hl, hrest⟩ := List.forall_mem_cons.1 hfits
    cases ls with
    | nil =>
      rw [countChars, show l.next = none from hc]
      simp [CharBagLeaf.chars_length hl, M.pure_run]
    | cons x ls =>
      obtain ⟨hn, hget, hc'⟩ := hc
      rw [countChars, hn]
      dsimp only
      rw [M.bind_ok (getLeaf_run hget), M.bind_ok (ih hc' (by simpa using hf) hrest), M.pure_run]
      simp only [List.map_cons, List.flatMap_cons, List.length_append, CharBagLeaf.chars_length hl]

theorem copyChars_run {fuel : Nat} {l : CharBagLeaf} {ls : List (Addr × CharBagLeaf)}
    (hc : Leaves w.heap none l.next ls) (hf : ls.length < fuel) :
    copyChars charBag fuel l w = .ok ((l :: ls.map Prod.snd).flatMap CharBagLeaf.chars, w) := by
  induction fuel generalizing l ls with
  | zero => omega
  | succ fuel ih =>
    cases ls with
    | nil =>
      rw [copyChars, show l.next = none from hc]
      simp [CharBagLeaf.chars, M.pure_run]
    | cons x ls =>
      obtain ⟨hn, hget, hc'⟩ := hc
      rw [copyChars, hn]
      dsimp only
      rw [M.bind_ok (getLeaf_run hget), M.bind_ok (ih hc' (by simpa using hf)), M.pure_run,
        List.flatMap_cons]
      rfl

/-- There are at most as many leaves as cells. -/
theorem BagLeaves.length_le {h : Store Cell} {ls : List (Addr × CharBagLeaf)}
    (hb : BagLeaves h charBag ls) : ls.length ≤ h.size := by
  have hsub : ls.map Prod.fst ⊆ List.range h.size := fun a ha =>
    List.mem_range.2 (hb.lt_size a ha)
  simpa using hb.nodup.length_le_of_subset hsub

/-- A bag depends on its leaves only. -/
theorem Bag.congr {h h' : Store Cell} (hb : Bag h charBag as text)
    (has : ∀ x ∈ as, h'.get? x = h.get? x) : Bag h' charBag as text := by
  obtain ⟨ls, hls, rfl, rfl⟩ := hb
  exact ⟨ls, { hls with chain := hls.chain.congr has }, rfl, rfl⟩

/-- A bag is not affected by an allocation, and none of its leaves is the new block. -/
theorem Bag.alloc {h : Store Cell} (hb : Bag h charBag as text) (c : Cell) :
    Bag (h.alloc c) charBag as text ∧ h.size ∉ as := by
  have hlt : ∀ x ∈ as, x < h.size := by
    obtain ⟨ls, hls, rfl, rfl⟩ := hb
    exact hls.lt_size
  exact ⟨hb.congr fun x hx => Store.get?_alloc_lt (hlt x hx), fun hm => absurd (hlt _ hm) (Nat.lt_irrefl _)⟩

/-- The two passes over a bag. -/
theorem passes_run (hb : Bag w.heap charBag as text) :
    countChars charBag (w.heap.size + 1) charBag.rootLeaf w = .ok (text.length, w) ∧
      copyChars charBag (w.heap.size + 1) charBag.rootLeaf w = .ok (text, w) := by
  obtain ⟨ls, hls, -, rfl⟩ := hb
  have hlen := Nat.lt_succ_of_le hls.length_le
  exact ⟨countChars_run hls.chain hlen hls.fits, copyChars_run hls.chain hlen⟩

/-- **The string made from a bag** is its text with a NUL behind it. -/
theorem charBagToString_run (hb : Bag w.heap charBag as text) (ho : w.oracle w.mallocs = true) :
    charBagToString charBag w = .ok (some w.heap.size,
      { w with heap := w.heap.alloc (.text (text ++ [0])), mallocs := w.mallocs + 1 }) := by
  unfold charBagToString
  rw [M.run_bind]
  rw [(passes_run hb).1]
  dsimp only
  rw [M.bind_ok (malloc_run w ho _)]
  generalize hc : Cell.text (List.replicate (text.length + 1) 0) = c
  generalize hw1 : ({ w with heap := w.heap.alloc c, mallocs := w.mallocs + 1 } : World) = w1
  have hb1 : Bag w1.heap charBag as text := by
    rw [← hw1]
    exact (hb.alloc c).1
  have hcell : w1.heap.get? w.heap.size = some c := by
    rw [← hw1]
    exact Store.get?_alloc_self _ _
  dsimp only
  rw [M.run_bind]
  rw [(passes_run hb1).2]
  dsimp only
  rw [M.bind_ok (cAssert_run (beq_self_eq_true _) w1), M.bind_ok (store_run w1 hcell _), ← hw1]
  simp only [Store.put_alloc]
  rfl

theorem charBagToString_fail (hb : Bag w.heap charBag as text) (ho : w.oracle w.mallocs = false) :
    charBagToString charBag w = .ok (none, { w with mallocs := w.mallocs + 1 }) := by
  unfold charBagToString
  rw [M.run_bind]
  rw [(passes_run hb).1]
  dsimp only
  rw [M.bind_ok (malloc_fail w ho _)]
  rfl

/-! ## Releasing the leaves -/

theorem cleanup_run {fuel : Nat} {w : World} {p : Ptr} {ls : List (Addr × CharBagLeaf)}
    (hc : Leaves w.heap none p ls) (hn : (ls.map Prod.fst).Nodup) (hf : ls.length ≤ fuel) :
    ∃ h', charBagCleanup.run fuel p w = .ok ((), { w with heap := h' }) ∧ h'.size = w.heap.size ∧
      ∀ x, h'.get? x = if x ∈ ls.map Prod.fst then none else w.heap.get? x := by
  induction fuel generalizing w p ls with
  | zero =>
    obtain rfl : ls = [] := List.eq_nil_of_length_eq_zero (by omega)
    obtain rfl : p = none := hc
    exact ⟨w.heap, rfl, rfl, by simp⟩
  | succ fuel ih =>
    cases ls with
    | nil =>
      obtain rfl : p = none := hc
      exact ⟨w.heap, rfl, rfl, by simp⟩
    | cons x ls =>
      obtain ⟨rfl, hget, hc'⟩ := hc
      rw [List.map_cons, List.nodup_cons] at hn
      have hc1 : Leaves (w.heap.release x.1) none x.2.next ls :=
        hc'.congr fun y hy => Store.get?_release_ne fun he => hn.1 (he ▸ hy)
      obtain ⟨h', hrun, hsize, hframe⟩ := @ih { w with heap := w.heap.release x.1 } _ _ hc1 hn.2
        (by simpa using hf)
      refine ⟨h', ?_, by simpa using hsize, fun y => ?_⟩
      · rw [charBagCleanup.run, M.bind_ok (load_run w hget)]
        dsimp only
        rw [M.bind_ok (free_run w hget)]
        exact hrun
      · rw [hframe, Store.get?_release, List.map_cons]
        by_cases hy : y = x.1
        · simp [hy]
        · simp only [List.mem_cons, hy, false_or, if_false]

/-- **The leaves of a bag are released**, and nothing else. -/
theorem charBagCleanup_run (hb : Bag w.heap charBag as text) :
    ∃ charBag' h', charBagCleanup charBag w = .ok (charBag', { w with heap := h' }) ∧
      h'.size = w.heap.size ∧ ∀ x, h'.get? x = if x ∈ as then none else w.heap.get? x := by
  obtain ⟨ls, hls, rfl, -⟩ := hb
  obtain ⟨h', hrun, hsize, hframe⟩ := cleanup_run hls.chain hls.nodup hls.length_le
  refine ⟨{ charBag with rootLeaf := { charBag.rootLeaf with next := none } }, h', ?_, hsize, hframe⟩
  unfold charBagCleanup
  rw [M.run_bind]
  rw [hrun]
  rfl

end JsonDom
