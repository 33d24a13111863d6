import JsonDom.Doc.Reformat
import JsonDom.Doc.Value
import JsonDom.Proof.Access
import JsonDom.Spec.View

/-!
# The viewer on a tree in memory

`Mirrors h t V`: the nodes of `t` show in the memory `h` what is in the tree `V`, position by position. On such
a tree `test_getrel` prints the screens of `V` and ends where the keys lead to (`getrel_run`); between two
screens nothing is changed but memory that was requested and released again (`Idle`).
-/

namespace JsonDom

open Lib OTree

variable {h : Store Cell} {w w' : World} {t u : OTree} {V v : View} {pos : List Nat} {x a : Addr} {text : Bytes}

/-! ## The nodes of a document -/

inductive Mirrors (h : Store Cell) : OTree → View → Prop
  | node {a : Addr} {ts : List OTree} {n : JdNode} {text : Bytes} {len : Nat} {vs : List View} :
      h.get? a = some (.node n) → Shows h a text len → len ≤ text.length + 3 → ts.length = vs.length →
      (∀ (i : Nat) (u : OTree) (v : View), ts[i]? = some u → vs[i]? = some v → Mirrors h u v) →
      Mirrors h (.node a ts) (.node n.type text vs)

/-- The node of a value shows a word. -/
theorem Denotes.word {J : Json} (hd : Denotes h t J) (h0 : J.NoNul) :
    ∃ n, h.get? t.addr = some (.node n) ∧ n.type = J.type ∧ wordOf h n = some J.view.text := by
  obtain ⟨n, hn, htype, hp⟩ := hd.root
  refine ⟨n, hn, htype, ?_⟩
  have hstring : ∀ s q, 0 ∉ s → n.payload = some q → h.get? q = some (.text (s ++ [0])) →
      cstring h n.payload = some s := by
    intro s q hs hq ht
    have hall : ∀ c ∈ s, c ≠ 0 := fun c hc he => hs (he ▸ hc)
    rw [hq, cstring, Option.bind_some, ht]
    dsimp only
    rw [if_pos (by simp), List.takeWhile_append_of_pos (by simpa using hall)]
    simp
  cases J with
  | null | true | false | arr | obj =>
    rw [wordOf, htype, Json.view]
    rfl
  | str s | int s | float s =>
    obtain ⟨q, hq, ht⟩ := hp
    rw [wordOf, htype, Json.view]
    exact hstring s q (h0.inv s rfl) hq ht

theorem mirrors_scalar {J : Json} (hJ : ¬ J.IsCollection) (hc : Content h a J.type J.text) (h0 : J.NoNul) :
    Mirrors h (.node a []) J.view := by
  obtain ⟨n, hn, htype, hword⟩ := (Denotes.scalar hJ hc).word h0
  have hview : J.view = .node n.type J.view.text [] := by
    rw [htype]
    cases J with
    | arr | obj => exact absurd trivial hJ
    | _ => rw [Json.view]; rfl
  rw [hview]
  exact .node hn (.word hn hword) (by simp) rfl (by simp)

/-- The property around a value. -/
theorem mirrors_property {J : Json} {l : Addr} {label : Bytes} {up prev next : Ptr}
    (hp : Content h a .jdProperty none) (hl : Content h l .jdString (some label)) (hlabel : 0 ∉ label)
    (hlink : Linked (links h) up prev next (.node a [.node l [], t])) (hd : Denotes h t J) (h0 : J.NoNul)
    (ht : Mirrors h t J.view) : Mirrors h (.node a [.node l [], t]) (viewMember (label, J)) := by
  have hno : (Json.str label).NoNul := .scalar id fun s hs => by cases hs; exact hlabel
  obtain ⟨n, hn, htype, -⟩ := hp
  obtain ⟨m, hm, hmtype, hmword⟩ := (@Denotes.scalar h l (.str label) id hl).word hno
  obtain ⟨k, hk, -, hkword⟩ := hd.word h0
  have hlinks := (linked_node.1 hlink).1
  rw [links_of hn] at hlinks
  have hshows : Shows h a (label ++ [ch ':'] ++ J.view.text) _ :=
    .property hn htype (congrArg Links.first (Option.some.inj hlinks))
      (congrArg Links.last (Option.some.inj hlinks)) hm hmtype (by simpa [Json.view, View.text] using hmword) hk
      hkword
  rw [viewMember, ← htype]
  refine .node hn hshows (by simp; omega) rfl fun i u v hu hv => ?_
  rcases i with _ | _ | i
  · cases hu
    cases hv
    exact mirrors_scalar id hl hno
  · cases hu
    cases hv
    exact ht
  · cases hu

/-- **The tree of a document shows what its view says.** -/
theorem Denotes.mirrors {J : Json} {up prev next : Ptr} (hd : Denotes h t J) (h0 : J.NoNul)
    (hlink : Linked (links h) up prev next t) : Mirrors h t J.view := by
  induction hd generalizing up prev next with
  | scalar hJ hc => exact mirrors_scalar hJ hc h0
  | @coll a k xs hxs hl hc ih =>
    obtain ⟨n, hn, htype, hword⟩ := (Denotes.coll hxs hl hc).word h0
    have hkids := hlink.kids
    rw [view_build] at hword ⊢
    rw [Kind.type_build] at htype
    rw [← htype]
    refine .node hn (.word hn hword) (by simp) (by simp) fun i u v hu hv => ?_
    simp only [List.getElem?_map, Option.map_eq_some_iff] at hu hv
    obtain ⟨x, hx, rfl⟩ := hu
    obtain ⟨m, ⟨x', hx', rfl⟩, rfl⟩ := hv
    obtain rfl : x = x' := by simpa [hx] using hx'
    have hx := List.mem_of_getElem? hx
    obtain ⟨hno, hlabel⟩ := h0.member _ (List.mem_map_of_mem hx)
    obtain ⟨prev', next', hlinkx⟩ := hkids.mem (List.mem_map_of_mem (f := fun x : Item => x.node k) hx)
    cases k with
    | arr => exact ih x hx hno hlinkx
    | obj =>
      obtain ⟨_, _, hlinkv⟩ := hlinkx.kids.mem (List.mem_cons_of_mem _ List.mem_cons_self)
      exact mirrors_property (hl x hx).1 (hl x hx).2 (hlabel rfl) hlinkx (hxs x hx) hno (ih x hx hno hlinkv)

/-! ## Positions -/

theorem Mirrors.kids (hm : Mirrors h u v) (i : Nat) : Option.Rel (Mirrors h) u.kids[i]? v.kids[i]? := by
  cases hm with
  | @node a ts n text len vs _ _ _ hlen hkids =>
    show Option.Rel (Mirrors h) ts[i]? vs[i]?
    by_cases hi : i < ts.length
    · have hi' : i < vs.length := hlen ▸ hi
      rw [List.getElem?_eq_getElem hi, List.getElem?_eq_getElem hi']
      exact .some (hkids i _ _ (List.getElem?_eq_getElem hi) (List.getElem?_eq_getElem hi'))
    · rw [List.getElem?_eq_none (Nat.le_of_not_lt hi), List.getElem?_eq_none (hlen ▸ Nat.le_of_not_lt hi)]
      exact .none

theorem Mirrors.get (hm : Mirrors h t V) (pos : List Nat) : Option.Rel (Mirrors h) (t.get? pos) (V.get? pos) := by
  induction pos with
  | nil => exact .some hm
  | cons i pos ih =>
    rw [OTree.get?, View.get?]
    cases ht : t.get? pos <;> cases hV : V.get? pos <;> rw [ht, hV] at ih <;> cases ih
    · exact .none
    · next hm => exact hm.kids i

/-- A move leads to a node just where it leads to one in the view. -/
theorem Mirrors.go (hm : Mirrors h t V) (m : Move) :
    ((m.pos pos).bind t.get?).map addr = (V.go pos m).bind fun pos' => (t.get? pos').map addr := by
  unfold View.go
  cases hpos : m.pos pos with
  | none => rfl
  | some pos' =>
    have hget := hm.get pos'
    rw [Option.bind_some]
    cases ht : t.get? pos' <;> cases hV : V.get? pos' <;> rw [ht, hV] at hget <;> cases hget <;>
      simp [Option.filter, ht, hV]

/-- There is a node where a move goes to. -/
theorem Mirrors.go_some (hm : Mirrors h t V) {m : Move} {pos' : List Nat} (hgo : V.go pos m = some pos') :
    ∃ u, t.get? pos' = some u := by
  obtain ⟨-, hV⟩ := Option.filter_eq_some_iff.1 hgo
  have hget := hm.get pos'
  cases ht : t.get? pos' with
  | some u => exact ⟨u, rfl⟩
  | none =>
    rw [ht] at hget
    cases hv : V.get? pos' <;> rw [hv] at hget hV
    · cases hV
    · cases hget

/-! ## What the viewer leaves -/

section

variable {h' : Store Cell} (hkeep : ∀ x c, h.get? x = some c → h'.get? x = some c)

include hkeep

theorem wordOf_keep {n : JdNode} (ht : wordOf h n = some text) : wordOf h' n = some text := by
  have hstring : cstring h n.payload = some text → cstring h' n.payload = some text := by
    intro hc
    obtain ⟨q, block, hq, hblock, h0, rfl⟩ := cstring_some hc
    rw [hq, cstring, Option.bind_some, hkeep q _ hblock]
    exact if_pos h0
  unfold wordOf at ht ⊢
  cases htype : n.type with rw [htype] at ht
  | jdString | jdInteger | jdFloat => exact hstring ht
  | _ => exact ht

theorem Shows.keep {len : Nat} (hs : Shows h x text len) : Shows h' x text len := by
  cases hs with
  | word hx ht => exact .word (hkeep _ _ hx) (wordOf_keep hkeep ht)
  | property hx htype hfirst hlast hl hm hlabel hv ht =>
    exact .property (hkeep _ _ hx) htype hfirst hlast (hkeep _ _ hl) hm (wordOf_keep hkeep hlabel)
      (hkeep _ _ hv) (wordOf_keep hkeep ht)

theorem Mirrors.keep (hm : Mirrors h t V) : Mirrors h' t V := by
  induction hm with
  | node hn hs hlen hkids _ ih => exact .node (hkeep _ _ hn) (hs.keep hkeep) hlen hkids ih

end

/-- The tree can be walked and its texts can be shown. -/
structure Sees (h : Store Cell) (t : OTree) (V : View) : Prop where
  linked : Linked (links h) none none none t
  owned : Owned h t.addrs
  mirrors : Mirrors h t V
  small : ∀ pos v, V.get? pos = some v → v.text.length + 3 ≤ 2147483647

theorem Sees.congr {h' : Store Cell} (hs : Sees h t V) (hget : h'.get? = h.get?) : Sees h' t V where
  linked := by
    have hlinks : links h' = links h := by
      funext x
      exact links_congr (congrFun hget x)
    rw [hlinks]
    exact hs.linked
  owned := (hs.owned.frame fun x _ => congrFun hget x).1
  mirrors := hs.mirrors.keep fun x c hx => (congrFun hget x).trans hx
  small := hs.small

/-- Only `out` was printed: what was requested is released again. -/
structure Idle (w w' : World) (out : Bytes) : Prop where
  src : w'.toSrc = w.toSrc
  get : w'.heap.get? = w.heap.get?
  size : w.heap.size ≤ w'.heap.size
  oracle : w'.oracle = w.oracle
  stdout : w'.stdout = w.stdout ++ out

namespace Idle

variable {out out' : Bytes} {w1 : World}

theorem printed (w : World) (out : Bytes) : Idle w { w with stdout := w.stdout ++ out } out :=
  ⟨rfl, rfl, Nat.le_refl _, rfl, rfl⟩

theorem nil (w : World) : Idle w w [] := ⟨rfl, rfl, Nat.le_refl _, rfl, (List.append_nil _).symm⟩

theorem trans (h : Idle w w1 out) (h' : Idle w1 w' out') : Idle w w' (out ++ out') where
  src := h'.src.trans h.src
  get := h'.get.trans h.get
  size := Nat.le_trans h.size h'.size
  oracle := h'.oracle.trans h.oracle
  stdout := by rw [h'.stdout, h.stdout, List.append_assoc]

theorem ample (h : Idle w w' out) (hw : w.Ample) : w'.Ample := fun n => by
  rw [h.oracle]
  exact hw n

end Idle

/-! ## A screen -/

/-- What a buffer holds after `jd_node_value`. -/
theorem getString_value {block : Bytes} {b : Addr} (hb : w.heap.get? b = some (.text (text ++ 0 :: block)))
    (h0 : 0 ∉ text) : getString (some b) w = .ok (text, w) := by
  have hall : ∀ c ∈ text, c ≠ 0 := fun c hc he => h0 (he ▸ hc)
  rw [getString_run w hb (by simp), List.takeWhile_append_of_pos (by simpa using hall)]
  simp

variable {junk : Nat → Bytes}

/-- `jd_node_value` in a block of the right length that was just requested: the text and its NUL, and what was in
the block behind them. -/
theorem buffer_filled {n : JdNode} {len : Nat} (hn : w.heap.get? a = some (.node n)) (hs : Shows w.heap a text len)
    (hlen : len ≤ 2147483647) (hjunk : ∀ k, (junk k).length = k)
    (hpay : ∀ v, n.lastChild = some v → payloadOf w.heap v ≠ some w.heap.size)
    (hheap : w'.heap = w.heap.alloc (.text (junk len))) :
    ∃ g, jdNodeValue (some a) (some w.heap.size) len w' = .ok ((len : Int), { w' with heap := g }) ∧
      g.size = w.heap.size + 1 ∧ (∀ x, x ≠ w.heap.size → g.get? x = w.heap.get? x) ∧
      g.get? w.heap.size = some (.text (text ++ 0 :: (junk len).drop (text ++ [0]).length)) := by
  have hkeep : ∀ x c, w.heap.get? x = some c → w'.heap.get? x = some c := by
    intro x c hx
    rw [hheap, Store.get?_alloc_lt (Store.lt_size hx), hx]
  have hbuffer : w'.heap.get? w.heap.size = some (.text (junk len)) := by
    rw [hheap]
    exact Store.get?_alloc_self _ _
  have happart : ∀ v, n.lastChild = some v → payloadOf w'.heap v ≠ some w.heap.size := by
    intro v hv
    by_cases hvb : v = w.heap.size
    · intro hp
      rw [hvb, payloadOf, hbuffer] at hp
      cases hp
    · rw [payloadOf, hheap, Store.get?_alloc_ne hvb]
      exact hpay v hv
  have hvalue := (hs.keep hkeep).value hlen hbuffer (Nat.le_of_eq (hjunk len).symm) (fun m v hm hv => ?_)
    (Int.le_refl _)
  · refine ⟨_, hvalue, ?_, fun x hx => ?_, ?_⟩
    · rw [Store.size_put, hheap, Store.size_alloc]
    · rw [Store.get?_put_ne hx, hheap, Store.get?_alloc_ne hx]
    · rw [Store.get?_put_self (Store.lt_size hbuffer), splice_zero, List.append_assoc]
      rfl
  · cases hm.symm.trans (hkeep _ _ hn)
    exact happart v hv

/-- **The details of a node are printed**, by way of a buffer that is released again. -/
theorem printNodeDetails_run {n : JdNode} {len : Nat} (hn : w.heap.get? a = some (.node n))
    (hs : Shows w.heap a text len) (hlen : len ≤ 2147483647) (hw : w.Ample) (hjunk : ∀ k, (junk k).length = k)
    (hpay : ∀ v, n.lastChild = some v → payloadOf w.heap v ≠ some w.heap.size) :
    ∃ w', printNodeDetails junk (some a) w = .ok ((), w') ∧
      Idle w w' (detail (cs "Type:  ") (typeNames n.type) ++ detail (cs "Value: ") text) := by
  have hfits := hs.fits
  have hsize : ((len : Int) % 18446744073709551616).toNat = len := by omega
  -- the worlds with the type printed, and with a buffer
  obtain ⟨w0, hw0⟩ : ∃ w0 : World, w0 = { w with
      stdout := w.stdout ++ detail (cs "Type:  ") (typeNames n.type) } := ⟨_, rfl⟩
  obtain ⟨w1, hw1⟩ : ∃ w1 : World, w1 = { w0 with
      heap := w.heap.alloc (.text (junk len)), mallocs := w.mallocs + 1 } := ⟨_, rfl⟩
  have hs0 : Shows w0.heap a text len := by
    rw [hw0]
    exact hs
  have hmalloc : malloc (.text (junk len)) w0 = .ok (some w.heap.size, w1) := by
    rw [malloc_run w0 (by rw [hw0]; exact hw _), hw1, hw0]
  obtain ⟨g, hvalue, hgsize, hget, hfull⟩ := @buffer_filled w w1 _ _ _ _ _ hn hs hlen hjunk hpay (by rw [hw1])
  refine ⟨{ w1 with
    stdout := w1.stdout ++ detail (cs "Value: ") text
    heap := g.release w.heap.size }, ?_, ?_⟩
  · unfold printNodeDetails
    rw [if_pos Option.isSome_some]
    refine (M.bind_ok (idName_run hn)).trans ((M.bind_ok (printf_run _ w)).trans ?_)
    rw [← hw0]
    refine (M.bind_ok (hs0.length hlen)).trans ?_
    rw [if_pos (by omega), hsize]
    refine (M.bind_ok hmalloc).trans ?_
    rw [if_pos Option.isSome_some]
    refine (M.bind_ok hvalue).trans ((M.bind_ok (getString_value hfull hs.ne_zero)).trans ?_)
    exact (M.bind_ok (printf_run _ _)).trans (free_run _ hfull)
  · refine ⟨by rw [hw1, hw0], ?_, ?_, by rw [hw1, hw0], by rw [hw1, hw0, List.append_assoc]⟩
    · funext x
      show (g.release w.heap.size).get? x = _
      rw [Store.get?_release]
      split
      · next hx => rw [hx, Store.get?_size_le (Nat.le_refl _)]
      · next hx => exact hget x hx
    · show _ ≤ (g.release w.heap.size).size
      rw [Store.size_release, hgsize]
      exact Nat.le_succ _

theorem Mirrors.shown (hm : Mirrors h u v) : ∃ n len, h.get? u.addr = some (.node n) ∧ n.type = v.type ∧
    Shows h u.addr v.text len ∧ len ≤ v.text.length + 3 := by
  cases hm with
  | node hn hs hlen => exact ⟨_, _, hn, rfl, hs, hlen⟩

/-- The pointers that the viewer collects. -/
def Kin.of (k : Links) : Kin := ⟨k.parent, k.next, k.first, k.prev⟩

/-- The node a key leads to is the one its move goes to. -/
theorem Kin.rel_of (k : Links) (key : Bytes) : (Kin.of k).rel key = (moveOf key).bind k.along := by
  unfold Kin.rel moveOf
  have hne : keyUp ≠ keyRight ∧ keyUp ≠ keyDown ∧ keyUp ≠ keyLeft := by decide
  by_cases hup : key = keyUp
  · rw [if_pos hup, hup, if_neg hne.1, if_neg hne.2.1, if_neg hne.2.2]
    by_cases hp : k.parent.isSome
    · exact if_pos ⟨rfl, hp⟩
    · rw [if_neg fun h => hp h.2]
      exact (Option.not_isSome_iff_eq_none.1 hp).symm
  · rw [if_neg (fun h => hup h.1), if_neg hup]
    split
    · rfl
    split
    · rfl
    split <;> rfl

/-- There is a node in a direction where there is one in the tree that is shown. -/
theorem Sees.can {k : Links} (hs : Sees h t V)
    (hgo : ∀ m, k.along m = (V.go pos m).bind fun pos' => (t.get? pos').map addr) (m : Move) :
    (k.along m).isSome = (V.go pos m).isSome := by
  rw [hgo]
  cases hm : V.go pos m with
  | none => rfl
  | some pos' =>
    obtain ⟨u, hu⟩ := hs.mirrors.go_some hm
    rw [Option.bind_some, hu]
    rfl

/-- The text of the last child is no new block. -/
theorem Sees.payload_old {k : Links} {y : Addr} (hs : Sees h t V) (hu : t.get? pos = some u)
    (hk : links h u.addr = some k) (hlast : k.last = some y) : payloadOf h y ≠ some h.size := by
  intro hp
  obtain ⟨block, hq⟩ := hs.owned.text y (hs.linked.last_mem hu hk hlast) _ hp
  rw [Store.get?_size_le (Nat.le_refl _)] at hq
  cases hq

/-- A new screen: it is the one of the position, and the pointers lead along the moves. -/
theorem drawScreen_run (hs : Sees w.heap t V) (hw : w.Ample) (hjunk : ∀ k, (junk k).length = k)
    (hu : t.get? pos = some u) : ∃ k w', drawScreen junk (some u.addr) w = .ok (Kin.of k, w') ∧
      Idle w w' (V.screen pos) ∧ ∀ m, k.along m = (V.go pos m).bind fun pos' => (t.get? pos').map addr := by
  obtain ⟨k, hk, halong⟩ := hs.linked.along hu
  have hget := hs.mirrors.get pos
  rw [hu] at hget
  cases hV : V.get? pos with
  | none => rw [hV] at hget; cases hget
  | some v =>
  rw [hV] at hget
  cases hget with
  | some hm =>
  obtain ⟨n, len, hn, htype, hshows, hlen⟩ := hm.shown
  have hgo : ∀ m, k.along m = (V.go pos m).bind fun pos' => (t.get? pos').map addr := fun m =>
    (halong m).trans (hs.mirrors.go m)
  have hlinks : n.links = k := by simpa [links_of hn] using hk
  have hpay : ∀ v, n.lastChild = some v → payloadOf w.heap v ≠ some w.heap.size := fun v hv =>
    hs.payload_old hu hk (by rw [← hlinks]; exact hv)
  obtain ⟨w0, hw0⟩ : ∃ w0 : World, w0 = { w with stdout := w.stdout ++ (clearScreen ++
      contextMap k.parent.isSome k.next.isSome k.first.isSome k.prev.isSome) } := ⟨_, rfl⟩
  have hidle := Idle.printed w (clearScreen ++
    contextMap k.parent.isSome k.next.isSome k.first.isSome k.prev.isSome)
  rw [← hw0] at hidle
  have hheap : w0.heap = w.heap := by rw [hw0]
  rw [← hheap] at hn hshows hpay
  obtain ⟨w', hrun, hidle'⟩ := printNodeDetails_run hn hshows
    (Nat.le_trans hlen (hs.small pos v hV)) (hidle.ample hw) hjunk hpay
  refine ⟨k, { w' with stdout := w'.stdout ++ usage }, ?_, ?_, hgo⟩
  · have hkin : n.link 0 = k.parent ∧ n.link 1 = k.next ∧ n.link 2 = k.first ∧ n.link 3 = k.prev := by
      rw [← hlinks]
      exact ⟨rfl, rfl, rfl, rfl⟩
    have hn' : w.heap.get? u.addr = some (.node n) := hheap ▸ hn
    unfold drawScreen
    rw [M.bind_ok (getRelation_run hn' (by decide) hkin.1), M.bind_ok (getRelation_run hn' (by decide) hkin.2.1),
      M.bind_ok (getRelation_run hn' (by decide) hkin.2.2.1),
      M.bind_ok (getRelation_run hn' (by decide) hkin.2.2.2), M.bind_ok (printf_run _ w), ← hw0, M.bind_ok hrun,
      M.bind_ok (printf_run _ w')]
    rfl
  · have hall := (hidle.trans hidle').trans (.printed w' usage)
    have hscreen : V.screen pos = clearScreen ++
        contextMap k.parent.isSome k.next.isSome k.first.isSome k.prev.isSome ++
        (detail (cs "Type:  ") (typeNames n.type) ++ detail (cs "Value: ") v.text) ++ usage := by
      rw [View.screen, hV, htype]
      simp only [← hs.can hgo, List.append_assoc]
      rfl
    rw [hscreen]
    exact hall

/-! ## The walk -/

/-- **The loops follow the keys**: a new screen for every move to a node. -/
theorem loop_run {k : Links} (hs : Sees w.heap t V) (hw : w.Ample) (hjunk : ∀ k, (junk k).length = k)
    (hu : t.get? pos = some u) (hk : ∀ m, k.along m = (V.go pos m).bind fun pos' => (t.get? pos').map addr)
    (keys : List Bytes) : ∃ v w', testGetrel.loop junk keys (some u.addr) (Kin.of k) w = .ok (some v.addr, w') ∧
      t.get? (V.walk pos keys) = some v ∧ Idle w w' (V.screens pos keys) := by
  induction keys generalizing w pos u k with
  | nil => exact ⟨u, w, rfl, hu, .nil w⟩
  | cons key keys ih =>
    have hrel : (Kin.of k).rel key =
        ((moveOf key).bind (V.go pos)).bind fun pos' => (t.get? pos').map addr := by
      rw [Kin.rel_of]
      cases moveOf key with
      | none => rfl
      | some m => exact hk m
    rw [testGetrel.loop, View.walk, View.screens, hrel]
    by_cases hq : key = cs "q"
    · rw [if_pos hq, if_pos hq, if_pos hq]
      exact ⟨u, w, rfl, hu, .nil w⟩
    rw [if_neg hq, if_neg hq, if_neg hq]
    cases hgo : (moveOf key).bind (V.go pos) with
    | none => exact ih hs hw hu hk
    | some pos' =>
      obtain ⟨m, -, hm⟩ := Option.bind_eq_some_iff.1 hgo
      obtain ⟨u', hu'⟩ := hs.mirrors.go_some hm
      obtain ⟨k', w1, hdraw, hidle, hk'⟩ := drawScreen_run hs hw hjunk hu'
      obtain ⟨v, w', hrun, hv, hidle'⟩ := ih (hs.congr hidle.get) (hidle.ample hw) hu' hk'
      refine ⟨v, w', ?_, hv, hidle.trans hidle'⟩
      rw [Option.bind_some, hu', Option.map_some, if_pos Option.isSome_some, M.bind_ok hdraw]
      exact hrun

/-- **The viewer shows the screens of the walk** and stands at its end. -/
theorem getrel_run (hs : Sees w.heap t V) (hw : w.Ample) (hjunk : ∀ k, (junk k).length = k) (keys : List Bytes) :
    ∃ v w', testGetrel junk (some t.addr) keys w = .ok (some v.addr, w') ∧ t.get? (V.walk [] keys) = some v ∧
      Idle w w' (V.screen [] ++ V.screens [] keys) := by
  obtain ⟨k, w1, hdraw, hidle, hk⟩ := drawScreen_run hs hw hjunk (rfl : t.get? [] = some t)
  obtain ⟨v, w', hrun, hv, hidle'⟩ := loop_run (hs.congr hidle.get) (hidle.ample hw) hjunk rfl hk keys
  exact ⟨v, w', (M.bind_ok hdraw).trans hrun, hv, hidle.trans hidle'⟩

end JsonDom
