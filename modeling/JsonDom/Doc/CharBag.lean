import JsonDom.Proof.CharBag

/-!
# A character bag is a sequence of characters

Whichever leaves are refused, the bag holds the characters that were added, in their order, and the
operations of `CharBag.c` do on it what they do on that sequence (`charBag_serves`).
-/

namespace JsonDom

open Lib

variable {w w' : World} {charBag : CharBag} {as : List Addr} {text : Bytes}

/-- One `add_char_to_bag` for each character: those for which it returned true, and the bag. -/
def addChars (charBag : CharBag) : Bytes → M (Bytes × CharBag)
  | [] => pure ([], charBag)
  | c :: cs => do
    let (ok, charBag) ← addCharToBag charBag c
    let (kept, charBag) ← addChars charBag cs
    pure (if ok then c :: kept else kept, charBag)

/-- The bag in the world `w` is the sequence `text`, and its leaves are what was allocated since `w0`. -/
structure Serves (w0 w : World) (charBag : CharBag) (as : List Addr) (text : Bytes) : Prop where
  bag : Bag w.heap charBag as text
  only : Only w0.heap.size w.heap as
  kept : Kept w0.heap.size w0 w
  refused : ∀ c charBag' w', addCharToBag charBag c w = .ok ((false, charBag'), w') →
    w.oracle w.mallocs = false ∧ charBag' = charBag ∧ w' = { w with mallocs := w.mallocs + 1 }
  counted : countChars charBag (w.heap.size + 1) charBag.rootLeaf w = .ok (text.length, w)
  copied : copyChars charBag (w.heap.size + 1) charBag.rootLeaf w = .ok (text, w)
  fits : (text.length : Int) + 1 ≤ intMax
  string : w.oracle w.mallocs = true → ∃ a w', charBagToString charBag w = .ok (some a, w') ∧
    Bag w'.heap charBag as text ∧ w'.heap.get? a = some (.text (text ++ [0])) ∧
    w.heap.get? a = none ∧ ∀ x, x ≠ a → w'.heap.get? x = w.heap.get? x
  released : ∀ w', (∀ x ∈ as, w'.heap.get? x = w.heap.get? x) →
    ∃ charBag' w'', charBagCleanup charBag w' = .ok (charBag', w'') ∧
      ∀ x, w''.heap.get? x = if x ∈ as then none else w'.heap.get? x

/-- **Adding characters** appends those that are not refused. -/
theorem addChars_run {lo : Nat} {cs : Bytes} (hb : Bag w.heap charBag as text) (ho : Only lo w.heap as)
    (hlo : lo ≤ w.heap.size) :
    ∃ kept charBag' w' as', addChars charBag cs w = .ok ((kept, charBag'), w') ∧
      Bag w'.heap charBag' as' (text ++ kept) ∧ Only lo w'.heap as' ∧ Kept lo w w' ∧ kept.Sublist cs := by
  induction cs generalizing w charBag as text with
  | nil => exact ⟨[], charBag, w, as, rfl, by simpa using hb, ho, .refl _ _, .slnil⟩
  | cons c cs ih =>
    obtain ⟨ok, charBag1, w1, as1, hrun1, hb1, ho1, hk1, -⟩ := addCharToBag_run hb ho hlo c
    obtain ⟨kept, charBag2, w2, as2, hrun2, hb2, ho2, hk2, hsub⟩ := ih hb1 ho1 (Nat.le_trans hlo hk1.size)
    have hk := hk1.trans hk2 (Nat.le_refl lo)
    unfold addChars
    rw [M.bind_ok hrun1]
    dsimp only
    rw [M.bind_ok hrun2]
    cases ok with
    | false => exact ⟨kept, charBag2, w2, as2, rfl, by simpa using hb2, ho2, hk, hsub.cons c⟩
    | true => exact ⟨c :: kept, charBag2, w2, as2, rfl, by simpa using hb2, ho2, hk, hsub.cons_cons c⟩

theorem Bag.serves {w0 : World} (hb : Bag w.heap charBag as text) (ho : Only w0.heap.size w.heap as)
    (hk : Kept w0.heap.size w0 w) (hn : text.length ≤ 2147483646) : Serves w0 w charBag as text where
  bag := hb
  only := ho
  kept := hk
  refused _ _ _ hrun := addChar_false hb hrun
  counted := (passes_run hb).1
  copied := (passes_run hb).2
  fits := by
    unfold intMax
    omega
  string hw := by
    have hnew := (hb.alloc (.text (text ++ [0]))).1
    exact ⟨w.heap.size, _, charBagToString_run hb hw, hnew, Store.get?_alloc_self _ _,
      Store.get?_size_le (Nat.le_refl _), fun x hx => Store.get?_alloc_ne hx⟩
  released w1 h1 := by
    obtain ⟨charBag', h', hrun, -, hget⟩ := charBagCleanup_run (hb.congr h1)
    exact ⟨charBag', _, hrun, hget⟩

/-- **A bag is the sequence of the characters added to it**, in every pattern of allocation failures. -/
theorem charBag_serves (w : World) {cs : Bytes} (hn : cs.length ≤ 2147483646) :
    ∃ kept charBag w' as, addChars initializeCharBag cs w = .ok ((kept, charBag), w') ∧
      Serves w w' charBag as kept := by
  obtain ⟨kept, charBag, w', as, hrun, hb, ho, hk, hsub⟩ :=
    @addChars_run w initializeCharBag [] [] w.heap.size cs (bag_init _) (only_empty _) (Nat.le_refl _)
  exact ⟨kept, charBag, w', as, hrun, hb.serves ho hk (Nat.le_trans hsub.length_le hn)⟩

/-- An empty file and no memory to be had. -/
def World.starved : World :=
  { input := [], ending := .eof, offset := 0, pe := { charLoc := 0, message := none }, heap := .empty,
    oracle := fun _ => false, mallocs := 0, stdout := [] }

/-- One character more than the root leaf takes. -/
theorem charBag_serves_starved : ∃ kept charBag w' as,
    addChars initializeCharBag (List.replicate 51 97) World.starved = .ok ((kept, charBag), w') ∧
      Serves World.starved w' charBag as kept :=
  charBag_serves World.starved (by decide)

end JsonDom
