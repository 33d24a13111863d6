import JsonDom.Proof.Bare
import JsonDom.Proof.Outcome

/-!
# What is left allocated behind a parse

With every allocation granted the blocks that are left are those of the tree, or none, unless an
unquoted text is met (`balanced_iff`): `JParser` copies a number and compares a keyword, and nobody
releases the string it looked at.
-/

namespace JsonDom

open Lib OTree

variable {w w' : World}

/-- Of the blocks that are new since `w` those of `as` are live. -/
def NewLive (w w' : World) (as : List Addr) : Prop :=
  ∀ x, w.heap.size ≤ x → ((w'.heap.get? x).isSome = true ↔ x ∈ as)

/-- What `jd_parse_file` allocated and did not free are the nodes of the tree it returns and their
payloads, each in one place; nothing where it returns false. -/
def Settled (w w' : World) (p : Ptr) : Bool → Prop
  | true => ∃ t : OTree, p = some t.addr ∧ Linked (links w'.heap) none none none t ∧
      Owned w'.heap t.addrs ∧ NewLive w w' (blocks w'.heap t.addrs)
  | false => p = none ∧ NewLive w w' []

/-- The call returns, so no block was released twice, and leaves nothing behind but the tree. -/
def Balanced (w : World) : Prop := ∃ ok p w', Returns w (ok, p) w' ∧ Settled w w' p ok

theorem balanced_iff_settled {ok : Bool} {p : Ptr} (h : Returns w (ok, p) w') :
    Balanced w ↔ Settled w w' p ok := by
  constructor
  · rintro ⟨ok', p', w1, h', hs⟩
    obtain ⟨hres, rfl⟩ := h.unique h'
    cases hres
    exact hs
  · intro hs
    exact ⟨ok, p, w', h, hs⟩

/-! ## Trees -/

variable {t t' : OTree}

theorem linked_same {ℓ : Addr → Option Links} (hl : Linked ℓ none none none t)
    (hl' : Linked ℓ none none none t') (ha : t.addr = t'.addr) : ∀ x ∈ t.addrs, x ∈ t'.addrs := by
  refine hl.reach (fun x k y hx hk hy => ?_) (ha ▸ t'.addr_mem)
  obtain ⟨hfirst, hnext⟩ := hl'.closed x hx k hk y
  exact hy.elim hfirst fun h => (hnext h).resolve_right (by simp)

theorem blocks_mono {h : Store Cell} {as bs : List Addr} (hs : ∀ x ∈ as, x ∈ bs) :
    ∀ x ∈ blocks h as, x ∈ blocks h bs := fun x hx => by
  rw [mem_blocks] at hx ⊢
  apply hx.imp (hs x)
  rintro ⟨y, hy, hq⟩
  exact ⟨y, hs y hy, hq⟩

/-- It does not matter which tree below the root is looked at. -/
theorem settled_tree {p : Ptr} (hp : p = some t.addr) (hl : Linked (links w'.heap) none none none t)
    (ho : Owned w'.heap t.addrs) : Settled w w' p true ↔ NewLive w w' (blocks w'.heap t.addrs) := by
  constructor
  · rintro ⟨t', hp', hl', -, hn⟩ x hx
    have haddr : t'.addr = t.addr := Option.some.inj (hp'.symm.trans hp)
    rw [hn x hx]
    exact ⟨blocks_mono (linked_same hl' hl haddr) x, blocks_mono (linked_same hl hl' haddr.symm) x⟩
  · intro hn
    exact ⟨t, hp, hl, ho, hn⟩

/-! ## The balance -/

theorem balanced_iff_leaks (hw : w.Ample) (he : w.ending = .eof) : Balanced w ↔ leaks w.requests = 0 := by
  have hrun := parseFile_run (8 * w.input.length + 3) (hw.grants _)
  cases ho : Reader.file (8 * w.input.length + 3) w.toSrc with
  | timeout => exact absurd ho (file_enough he)
  | fail k s =>
    rw [ho] at hrun
    obtain ⟨w', hrun, hk, -, hsp⟩ := hrun
    rw [balanced_iff_settled (returns_iff.2 ⟨_, hrun⟩), Settled, and_iff_right rfl, NewLive,
      Store.card_live_iff hk.frame List.nodup_nil (by simp) (by simp), List.length_nil]
    have hlive := hsp.live
    rw [World.requests]
    omega
  | ok J s =>
    rw [ho] at hrun
    obtain ⟨t, w', hrun, hm, -, hsp⟩ := hrun
    obtain ⟨hn, hlive⟩ := hm.grown.owned.blocks hm.grown.hangs
    rw [balanced_iff_settled (returns_iff.2 ⟨_, hrun⟩), settled_tree rfl hm.grown.hangs hm.grown.owned,
      NewLive, Store.card_live_iff (fun x hx => hm.grown.frame x hx id) hn hm.grown.fresh hlive]
    have hspent := hsp.live
    rw [World.requests]
    unfold held at hspent
    omega

/-- **What a parse leaves is its tree** if and only if no unquoted text is met. -/
theorem balanced_iff (hw : w.Ample) (he : w.ending = .eof) :
    Balanced w ↔ (Scan.init w.offset).meetsBare w.input = false := by
  rw [balanced_iff_leaks hw he]
  refine value_leaks fun ho => file_enough he ?_
  rw [Reader.file, ho]
  rfl

theorem balanced_string : Balanced (World.start (cs "[\"a\"]") .eof) :=
  (balanced_iff (start_ample _ _) rfl).2 (by decide)

/-- The string of the lexeme `1` is lost. -/
theorem number_lost : ¬ Balanced (World.start (cs "1") .eof) := by
  rw [balanced_iff_leaks (start_ample _ _) rfl]
  decide +kernel

end JsonDom
