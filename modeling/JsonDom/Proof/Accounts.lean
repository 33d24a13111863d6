import JsonDom.Proof.Build

/-!
# Accounts of a run

`Spent w w' rs own own'`: between `w` and `w'` the requests `rs` were made and granted. Of the live blocks
the caller owned `own` before and owns `own'` now; the blocks of the leaked requests are live as well, and
nothing else has changed in number. Accounts add up (`Spent.trans`).
-/

namespace JsonDom

open Lib OTree

/-- How many of the requests are for a block that is never released. -/
def leaks (rs : List Request) : Nat := rs.countP Request.leaked

/-- The blocks of a tree. -/
def held (h : Store Cell) (t : OTree) : Nat := (blocks h t.addrs).length

structure Spent (w w' : World) (rs : List Request) (own own' : Nat) : Prop where
  mallocs : w'.mallocs = w.mallocs + rs.length
  live : w'.heap.live.card + own = w.heap.live.card + own' + leaks rs

theorem leaks_append (rs rs' : List Request) : leaks (rs ++ rs') = leaks rs + leaks rs' :=
  List.countP_append

@[simp] theorem leaks_leaves (n : Nat) : leaks (leafRequests n) = 0 := by
  rw [leaks, List.countP_eq_zero]
  intro r hr
  rw [List.eq_of_mem_replicate hr]
  decide

namespace Spent

variable {w w' w'' : World} {rs rs' : List Request} {a b c : Nat}

theorem refl (w : World) (a : Nat) : Spent w w [] a a := ⟨rfl, rfl⟩

theorem trans (h1 : Spent w w' rs a b) (h2 : Spent w' w'' rs' b c) : Spent w w'' (rs ++ rs') a c where
  mallocs := by rw [h2.mallocs, h1.mallocs, List.length_append, Nat.add_assoc]
  live := by
    have hl1 := h1.live
    have hl2 := h2.live
    rw [leaks_append]
    omega

/-- A part that makes no request behind one that does. -/
theorem quiet (h1 : Spent w w' rs a b) (h2 : Spent w' w'' [] b c) : Spent w w'' rs a c := by
  have h := h1.trans h2
  rwa [List.append_nil] at h

/-- Blocks that stay what they are. -/
theorem frame (h : Spent w w' rs a b) (k : Nat) : Spent w w' rs (a + k) (b + k) := by
  refine ⟨h.mallocs, ?_⟩
  have hl := h.live
  omega

/-- No request is made. -/
theorem of_live (hm : w'.mallocs = w.mallocs) (hl : w'.heap.live = w.heap.live) : Spent w w' [] a a :=
  ⟨hm, by rw [hl]; rfl⟩

/-- One request, for a block of the caller's. -/
theorem one {r : Request} (hr : r.leaked = false) (hm : w'.mallocs = w.mallocs + 1)
    (hl : w'.heap.live.card = w.heap.live.card + 1) : Spent w w' [r] a (a + 1) := by
  refine ⟨hm, ?_⟩
  rw [leaks, List.countP_singleton, hr]
  simp only [Bool.false_eq_true, if_false]
  omega

end Spent

/-! ## Lexemes -/

section

variable {w w' : World}

/-- Where there is a new text one more block is live. -/
theorem NewText.card_live {a : Addr} {s : Bytes} (hk : Kept w.heap.size w w')
    (hn : NewText w.heap.size w'.heap a s) : w'.heap.live.card = w.heap.live.card + 1 := by
  obtain ⟨hlo, htext, hother⟩ := hn
  refine Store.card_live_insert (Store.get?_size_le hlo) htext fun b hb => ?_
  rcases Nat.lt_or_ge b w.heap.size with hlt | hge
  · rw [hk.frame b hlt]
  · rw [hother b hge hb, Store.get?_size_le hge]

theorem NoneNew.live (h : Kept w.heap.size w w') (hn : NoneNew w.heap.size w'.heap) :
    w'.heap.live = w.heap.live :=
  Store.live_congr fun b => by
    rcases Nat.lt_or_ge b w.heap.size with hlt | hge
    · rw [h.frame b hlt]
    · rw [hn b hge, Store.get?_size_le hge]

theorem leaks_quoted (s : Src) : leaks (Reader.quotedRequests s) = 0 := by
  unfold Reader.quotedRequests
  split
  · rw [leaks_append, leaks_leaves]
    rfl
  · exact leaks_leaves _

theorem leaks_bare (s : Src) : leaks (Reader.bareRequests s) = 1 := by
  unfold Reader.bareRequests
  split <;> rw [leaks_append, leaks_leaves] <;> rfl

/-- The caller gets the text of a lexeme in quotes. -/
theorem Spent.quoted {s : Src} {a : Addr} {t : Bytes} (hk : Kept w.heap.size w w')
    (hm : w'.mallocs = w.mallocs + (Reader.quotedRequests s).length)
    (hn : NewText w.heap.size w'.heap a t) : Spent w w' (Reader.quotedRequests s) 0 1 := by
  refine ⟨hm, ?_⟩
  rw [leaks_quoted, hn.card_live hk]

theorem Spent.unended {s : Src} (hk : Kept w.heap.size w w')
    (hm : w'.mallocs = w.mallocs + (Reader.quotedRequests s).length)
    (hn : NoneNew w.heap.size w'.heap) : Spent w w' (Reader.quotedRequests s) 0 0 := by
  refine ⟨hm, ?_⟩
  rw [leaks_quoted, hn.live hk]

/-- Nobody owns the text of one without. -/
theorem Spent.bare {s : Src} {a : Addr} {t : Bytes} (hk : Kept w.heap.size w w')
    (hm : w'.mallocs = w.mallocs + (Reader.bareRequests s).length)
    (hn : NewText w.heap.size w'.heap a t) : Spent w w' (Reader.bareRequests s) 0 0 := by
  refine ⟨hm, ?_⟩
  rw [leaks_bare, hn.card_live hk]

end

/-! ## Trees -/

section

variable {h h' : Store Cell} {a : Addr} {ts : List OTree} {t : OTree}

theorem held_append (h : Store Cell) (a : Addr) (ts : List OTree) (t : OTree) :
    held h (.node a (ts ++ [t])) = held h (.node a ts) + held h t := by
  have haddrs : (OTree.node a (ts ++ [t])).addrs = (OTree.node a ts).addrs ++ t.addrs := by simp
  simp only [held, blocks, haddrs, List.filterMap_append, List.length_append]
  omega

/-- A tree keeps its blocks where types and payloads stay. -/
theorem Stays.held {parent prev next : Ptr} (hs : Stays h h') (hl : Linked (links h) parent prev next t) :
    held h' t = held h t := by
  have hp : ∀ y ∈ t.addrs, payloadOf h' y = payloadOf h y := fun y hy => by
    obtain ⟨k, hk⟩ := hl.live y hy
    exact hs.payloadOf_eq hk
  rw [JsonDom.held, JsonDom.held, blocks, blocks, List.filterMap_congr hp]

theorem held_leaf {n : JdNode} (hn : h.get? a = some (.node n)) :
    held h (.node a []) = if n.payload.isSome then 2 else 1 := by
  have hp : payloadOf h a = n.payload := payloadOf_node hn
  rw [held, blocks]
  cases hpay : n.payload <;> simp [hp, hpay]

theorem Content.held {type : JdType} {text : Option Bytes} (hc : Content h a type text) :
    held h (.node a []) = if text.isSome then 2 else 1 := by
  obtain ⟨n, hn, -, htext⟩ := hc
  rw [held_leaf hn]
  cases text with
  | none =>
    rw [htext]
    rfl
  | some s =>
    obtain ⟨q, hq, -⟩ := htext
    rw [hq]
    rfl

/-- A property's node, its label's and the label itself are three blocks. -/
theorem held_property {p l : Addr} {label : Bytes} (hp : Content h p .jdProperty none)
    (hl : Content h l .jdString (some label)) : held h (.node p [.node l [], t]) = held h t + 3 := by
  have h2 : held h (.node p [.node l [], t]) = held h (.node p [.node l []]) + held h t :=
    held_append h p [.node l []] t
  have h1 : held h (.node p [.node l []]) = held h (.node p []) + held h (.node l []) :=
    held_append h p [] (.node l [])
  rw [h2, h1, hp.held, hl.held]
  simp only [Option.isSome_none, Option.isSome_some, Bool.false_eq_true, if_false, if_true]
  omega

/-- The blocks of a tree are different and live. -/
theorem Owned.blocks {parent prev next : Ptr} (ho : Owned h t.addrs)
    (hl : Linked (links h) parent prev next t) :
    (blocks h t.addrs).Nodup ∧ ∀ x ∈ blocks h t.addrs, (h.get? x).isSome = true := by
  have hlive : ∀ x ∈ t.addrs, ∃ n, h.get? x = some (.node n) := fun x hx => by
    obtain ⟨k, hk⟩ := hl.live x hx
    obtain ⟨n, hn, -⟩ := links_some hk
    exact ⟨n, hn⟩
  refine ⟨List.nodup_append.2 ⟨ho.nodup, ?_, fun x hx y hy he => ?_⟩, fun x hx => ?_⟩
  · refine List.pairwise_filterMap.2 (ho.nodup.imp_of_mem fun {y z} hy hz hne b hb b' hb' he => ?_)
    exact hne (ho.inj y hy z hz b hb (he ▸ hb'))
  · obtain ⟨z, hz, hp⟩ := List.mem_filterMap.1 hy
    obtain ⟨n, hn⟩ := hlive x hx
    obtain ⟨block, hb⟩ := ho.text z hz y hp
    rw [he, hb] at hn
    cases hn
  · rcases mem_blocks.1 hx with hx | ⟨y, hy, hp⟩
    · obtain ⟨n, hn⟩ := hlive x hx
      rw [hn]
      rfl
    · obtain ⟨block, hb⟩ := ho.text y hy x hp
      rw [hb]
      rfl

end

/-- Destroying a tree. -/
theorem Released.spent {w : World} {h' : Store Cell} {t : OTree} {parent prev next : Ptr}
    (ho : Owned w.heap t.addrs) (hl : Linked (links w.heap) parent prev next t)
    (hr : Released w.heap h' t.addrs) : Spent w { w with heap := h' } [] (held w.heap t) 0 := by
  obtain ⟨hn, hlive⟩ := ho.blocks hl
  refine ⟨rfl, ?_⟩
  exact (Store.card_live_release hn hlive hr.get).trans rfl

end JsonDom
