import Mathlib.Algebra.GroupWithZero.Nat
import JsonDom.Doc.Language

/-!
# What a parse costs

The tree of a document has a block for every node and one for every text in it, and for every value that is
written without quotes and brackets the parser loses one more (`parse_cost`).
-/

namespace JsonDom

open Lib OTree

/-! ## Sums over a document -/

mutual

/-- The sum of `f` over the values in a document, with `g` for every label. -/
def Json.sum (f : Json → Nat) (g : Nat) : Json → Nat
  | .arr xs => f (.arr xs) + sumElems f g xs
  | .obj ms => f (.obj ms) + sumMembers f g ms
  | J => f J

def sumElems (f : Json → Nat) (g : Nat) : List Json → Nat
  | [] => 0
  | J :: xs => J.sum f g + sumElems f g xs

def sumMembers (f : Json → Nat) (g : Nat) : List (Bytes × Json) → Nat
  | [] => 0
  | m :: ms => sumMember f g m + sumMembers f g ms

def sumMember (f : Json → Nat) (g : Nat) : Bytes × Json → Nat
  | (_, J) => g + J.sum f g

end

/-- The blocks of a tree: one for each node and each text, where a label's node has a property around it. -/
def Json.blocks (J : Json) : Nat := J.sum (fun J => if J.text.isSome then 2 else 1) 3

/-- The values that are written without quotes and brackets. -/
def Json.bares (J : Json) : Nat := J.sum (fun J => if J.IsBare then 1 else 0) 0

example : (Json.obj [(cs "a", .arr [.int (cs "1"), .null])]).blocks = 8 := by decide

section

variable {f : Json → Nat} {g : Nat}

theorem sum_scalar {J : Json} (h : ¬ J.IsCollection) : J.sum f g = f J := by
  cases J with
  | arr | obj => exact absurd trivial h
  | _ => rw [Json.sum] <;> simp

/-- What a member of a collection adds. -/
def Kind.sum (f : Json → Nat) (g : Nat) (k : Kind) (m : Bytes × Json) : Nat :=
  (if k = .obj then g else 0) + m.2.sum f g

theorem sum_build (k : Kind) (ms : List (Bytes × Json)) :
    (k.build ms).sum f g = f (k.build ms) + (ms.map (k.sum f g)).sum := by
  cases k with
  | arr =>
    rw [Kind.build, Json.sum]
    congr 1
    induction ms with
    | nil => rw [List.map_nil, sumElems]; rfl
    | cons m ms ih => rw [List.map_cons, sumElems, ih, List.map_cons, List.sum_cons]; simp [Kind.sum]
  | obj =>
    rw [Kind.build, Json.sum]
    congr 1
    induction ms with
    | nil => rw [sumMembers]; rfl
    | cons m ms ih => rw [sumMembers, sumMember, ih, List.map_cons, List.sum_cons]; simp [Kind.sum]

end

/-! ## The blocks of a tree -/

section

variable {h : Store Cell} {t : OTree} {J : Json}

theorem held_node (a : Addr) (ts : List OTree) :
    held h (.node a ts) = held h (.node a []) + (ts.map (held h)).sum := by
  induction ts using List.reverseRecOn with
  | nil => simp
  | append_singleton ts t ih =>
    rw [held_append, ih, List.map_append, List.sum_append]
    simp [Nat.add_assoc]

/-- **A tree has the blocks of its document.** -/
theorem Denotes.held (hd : Denotes h t J) : held h t = J.blocks := by
  induction hd with
  | scalar hJ hc => rw [hc.held, Json.blocks, sum_scalar hJ]
  | @coll a k xs _ hl hc ih =>
    have htext : (k.build (xs.map Item.pair)).text = none := by cases k <;> rfl
    rw [held_node, hc.held, Json.blocks, sum_build, htext, List.map_map, List.map_map]
    congr 2
    apply List.map_congr_left
    intro x hx
    have hx' := ih x hx
    rw [Json.blocks] at hx'
    cases k with
    | arr => simpa [Kind.sum, Item.node, Item.pair] using hx'
    | obj =>
      have hprop := @held_property _ x.tree _ _ _ (hl x hx).1 (hl x hx).2
      simp only [Function.comp_apply, Item.node, hprop, hx', Kind.sum, Item.pair, if_true]
      exact Nat.add_comm _ _

end

/-! ## The strings that are lost -/

namespace Reader

variable {fuel : Nat} {chr : UInt8} {s s' : Src} {J : Json} {e : Option UInt8} {k : Kind}

/-- The sum over members. -/
def baresOf (ms : List (Bytes × Json)) : Nat := (ms.map fun m => m.2.bares).sum

theorem bares_build (k : Kind) (ms : List (Bytes × Json)) : (k.build ms).bares = baresOf ms := by
  rw [Json.bares, sum_build, if_neg (k.build_not_bare ms), Nat.zero_add, baresOf]
  congr 1
  apply List.map_congr_left
  intro m _
  simp [Kind.sum, Json.bares]

theorem bares_append (ms : List (Bytes × Json)) (m : Bytes × Json) :
    baresOf (ms ++ [m]) = baresOf ms + m.2.bares := by
  simp [baresOf]

theorem scalar_leaks {stop : UInt8} (hs : scalar chr s = .ok (J, stop) s') :
    leaks (scalarRequests chr s) = J.bares := by
  unfold scalarRequests
  by_cases hq : chr = ch '"'
  · unfold scalar at hs
    rw [if_pos hq] at hs ⊢
    obtain ⟨t, s1, ht, hs⟩ := Out.bind_eq_ok hs
    cases hs
    rw [ht]
    dsimp only
    rw [leaks_append, leaks_quoted]
    rfl
  · rw [if_neg hq, hs]
    dsimp only
    unfold scalar at hs
    rw [if_neg hq] at hs
    rcases hlex : s.lex endCheckForUnquoted with ⟨⟨t, e⟩, s1⟩
    rw [hlex] at hs
    dsimp only at hs
    split at hs
    · next K hK =>
      cases hs
      have hbare := (unquoted_iff.1 hK).isBare
      have hcopy : leaks (.scalar :: copyRequests J) = 0 := by cases J <;> rfl
      rw [leaks_append, leaks_bare, hcopy, Json.bares, sum_scalar fun hc => hc.not_bare hbare, if_pos hbare]
    · cases hs

/-- The functions of the reader that read a value, a collection, a member or members lose what they read. -/
structure Loses (fuel : Nat) : Prop where
  value : ∀ {chr s J e s'}, value fuel chr s = .ok (J, e) s' → leaks (valueRequests fuel chr s) = J.bares
  collection : ∀ {k s J s'}, collection fuel k s = .ok J s' → leaks (collectionRequests fuel k s) = J.bares
  items : ∀ {k acc needs s ms s'}, items fuel k acc needs s = .ok ms s' →
    baresOf acc + leaks (itemsRequests fuel k acc needs s) = baresOf ms
  item : ∀ {k acc chr s ms s'}, item fuel k acc chr s = .ok ms s' →
    baresOf acc + leaks (itemRequests fuel k acc chr s) = baresOf ms
  member : ∀ {k chr s m e s'}, member fuel k chr s = .ok (m, e) s' →
    leaks (memberRequests fuel k chr s) = m.2.bares
  property : ∀ {chr s m e s'}, property fuel chr s = .ok (m, e) s' →
    leaks (propertyRequests fuel chr s) = m.2.bares
  afterLabel : ∀ {past s J e s'}, afterLabel fuel past s = .ok (J, e) s' →
    leaks (afterLabelRequests fuel past s) = J.bares

theorem loses_zero : Loses 0 where
  value h := by cases h
  collection h := by cases h
  items h := by cases h
  item h := by cases h
  member := by
    intro k chr s m e s' h
    cases k <;> cases h
  property h := by cases h
  afterLabel h := by cases h

theorem value_loses (hl : Loses fuel) (h : Reader.value (fuel + 1) chr s = .ok (J, e) s') :
    leaks (valueRequests (fuel + 1) chr s) = J.bares := by
  unfold Reader.value at h
  unfold valueRequests
  obtain ⟨b, s1, hb, h⟩ := Out.bind_eq_ok h
  rw [hb]
  dsimp only at h ⊢
  by_cases harr : b = ch '['
  · rw [if_pos harr] at h ⊢
    obtain ⟨K, s2, hK, h⟩ := Out.bind_eq_ok h
    cases h
    exact hl.collection hK
  rw [if_neg harr] at h ⊢
  by_cases hobj : b = ch '{'
  · rw [if_pos hobj] at h ⊢
    obtain ⟨K, s2, hK, h⟩ := Out.bind_eq_ok h
    cases h
    exact hl.collection hK
  rw [if_neg hobj] at h ⊢
  obtain ⟨⟨K, stop⟩, s2, hK, h⟩ := Out.bind_eq_ok h
  cases h
  exact scalar_leaks hK

theorem collection_loses (hl : Loses fuel) (h : Reader.collection (fuel + 1) k s = .ok J s') :
    leaks (collectionRequests (fuel + 1) k s) = J.bares := by
  unfold Reader.collection at h
  obtain ⟨ms, s1, hms, h⟩ := Out.bind_eq_ok h
  cases h
  have hitems := hl.items hms
  rw [show baresOf [] = 0 from rfl, Nat.zero_add] at hitems
  rw [bares_build, ← hitems]
  rfl

theorem items_loses (hl : Loses fuel) {acc ms : List (Bytes × Json)} {needs : Bool}
    (h : Reader.items (fuel + 1) k acc needs s = .ok ms s') :
    baresOf acc + leaks (itemsRequests (fuel + 1) k acc needs s) = baresOf ms := by
  rcases hr : s.read with ⟨b | _ | _, s1⟩
  · rw [items_one hr] at h
    rw [itemsRequests_one hr]
    cases hact : loopAct k (acc ≠ []) needs b <;> rw [hact] at h
    case again => exact hl.items h
    case member => exact hl.item h
    case done =>
      cases h
      rfl
    case fail => cases h
  · unfold Reader.items at h
    rw [hr] at h
    cases h
  · unfold Reader.items at h
    rw [hr] at h
    cases h

theorem item_loses (hl : Loses fuel) {acc ms : List (Bytes × Json)}
    (h : Reader.item (fuel + 1) k acc chr s = .ok ms s') :
    baresOf acc + leaks (itemRequests (fuel + 1) k acc chr s) = baresOf ms := by
  unfold Reader.item at h
  unfold itemRequests
  obtain ⟨⟨x, stop⟩, s1, hx, h⟩ := Out.bind_eq_ok h
  have hmember := hl.member hx
  rw [hx]
  dsimp only at h hmember ⊢
  rw [leaks_append, hmember, ← Nat.add_assoc, ← bares_append]
  by_cases hcomma : stop.getD 0 = ch ','
  · rw [if_pos hcomma] at h ⊢
    exact hl.items h
  rw [if_neg hcomma] at h ⊢
  by_cases hclose : stop.getD 0 = k.closeChar
  · rw [if_pos hclose] at h ⊢
    cases h
    rfl
  rw [if_neg hclose] at h ⊢
  split at h
  · next hcont =>
    rw [if_pos hcont]
    exact hl.items h
  · cases h

theorem member_loses (hl : Loses fuel) {m : Bytes × Json} (h : Reader.member (fuel + 1) k chr s = .ok (m, e) s') :
    leaks (memberRequests (fuel + 1) k chr s) = m.2.bares := by
  cases k with
  | arr =>
    unfold Reader.member at h
    unfold memberRequests
    obtain ⟨⟨K, stop⟩, s1, hK, h⟩ := Out.bind_eq_ok h
    cases h
    exact hl.value hK
  | obj =>
    unfold Reader.member at h
    unfold memberRequests
    exact hl.property h

theorem property_loses (hl : Loses fuel) {m : Bytes × Json} (h : Reader.property (fuel + 1) chr s = .ok (m, e) s') :
    leaks (propertyRequests (fuel + 1) chr s) = m.2.bares := by
  unfold Reader.property at h
  unfold propertyRequests
  split at h
  · cases h
  · next hq =>
    obtain ⟨label, s1, hlabel, h⟩ := Out.bind_eq_ok h
    obtain ⟨⟨K, stop⟩, s2, hK, h⟩ := Out.bind_eq_ok h
    cases h
    rw [if_neg hq, hlabel, leaks_append, leaks_quoted, Nat.zero_add]
    exact hl.afterLabel hK

theorem afterLabel_loses (hl : Loses fuel) {past : Bool} (h : Reader.afterLabel (fuel + 1) past s = .ok (J, e) s') :
    leaks (afterLabelRequests (fuel + 1) past s) = J.bares := by
  unfold Reader.afterLabel at h
  unfold afterLabelRequests
  rcases hr : s.read with ⟨b | _ | _, s1⟩ <;> rw [hr] at h <;> dsimp only at h ⊢
  · by_cases hb : isspace b = true
    · rw [if_pos hb] at h ⊢
      exact hl.afterLabel h
    rw [if_neg hb] at h ⊢
    by_cases hcol : b = ch ':'
    · rw [if_pos hcol] at h ⊢
      exact hl.afterLabel h
    rw [if_neg hcol] at h ⊢
    by_cases hpast : past = true
    · rw [if_pos hpast] at h ⊢
      rw [h, leaks_append, hl.value h]
      rfl
    · rw [if_neg hpast] at h
      cases h
  · cases h
  · cases h

theorem loses (fuel : Nat) : Loses fuel := by
  induction fuel with
  | zero => exact loses_zero
  | succ fuel ih =>
    exact
      { value := value_loses ih
        collection := collection_loses ih
        items := items_loses ih
        item := item_loses ih
        member := member_loses ih
        property := property_loses ih
        afterLabel := afterLabel_loses ih }

end Reader

/-- A document is read with its requests granted: its tree is new, and so many blocks are. -/
theorem document_made {w : World} {J : Json} (he : w.ending = .eof) (hg : w.Grants w.requests)
    (hd : Document J w.input) : ∃ t w' s, Returns w (true, some t.addr) w' ∧ Made w w' none t s ∧
      Denotes w'.heap t J ∧ w'.heap.live.card = w.heap.live.card + J.blocks + J.bares := by
  have hrun := parseFile_run _ hg
  have hread := @file_complete J w.toSrc hd (8 * w.input.length + 3)
  cases ho : Reader.file (8 * w.input.length + 3) w.toSrc with
  | timeout => exact absurd ho (file_enough he)
  | fail =>
    rw [ho] at hread
    exact hread.elim
  | ok K s =>
    rw [ho] at hrun hread
    obtain ⟨rfl, -⟩ := hread
    obtain ⟨t, w', hrun, hm, hden, hsp⟩ := hrun
    obtain ⟨⟨L, e⟩, s1, hv, hfile⟩ := Out.bind_eq_ok ho
    have hlost := (Reader.loses _).value hv
    have hK : L = K := by
      dsimp only at hfile
      split at hfile <;> cases hfile
      rfl
    have hlive := hsp.live
    rw [hden.held, hlost, hK] at hlive
    exact ⟨t, w', s, returns_iff.2 ⟨_, hrun⟩, hm, hden, by omega⟩

/-- `jd_destroy` where nothing has been changed since: the strings the parse lost are left. -/
theorem destroy_made {w w1 w2 : World} {t : OTree} {s : Src} {J : Json} (hm : Made w w1 none t s)
    (hd : Denotes w1.heap t J) (hlive : w1.heap.live.card = w.heap.live.card + J.blocks + J.bares)
    (hget : w2.heap.get? = w1.heap.get?) : ∃ h', jdDestroy (some t.addr) w2 = .ok ((), { w2 with heap := h' }) ∧
      (∀ x < w.heap.size, h'.get? x = w.heap.get? x) ∧ h'.live.card = w.heap.live.card + J.bares := by
  have hlinks : links w2.heap = links w1.heap := by
    funext x
    exact links_congr (congrFun hget x)
  have hlink : Linked (links w2.heap) none none none t := by
    rw [hlinks]
    exact hm.grown.hangs
  obtain ⟨hown, hblocks⟩ := hm.grown.owned.frame fun x _ => congrFun hget x
  obtain ⟨h', hrun, hrel⟩ := destroy_tree hlink hown
  refine ⟨h', (M.bind_ok hrun).trans rfl, fun x hx => ?_, ?_⟩
  · have hout : x ∉ blocks w2.heap t.addrs := by
      rw [hblocks]
      exact fun hin => absurd hx (Nat.not_lt_of_le (hm.grown.fresh x hin))
    rw [hrel.get, if_neg hout, hget]
    exact hm.grown.frame x hx id
  · have hheld := (hrel.spent hown hlink).live
    have hlive2 : w2.heap.live = w1.heap.live := Store.live_congr fun x => by rw [hget]
    rw [((Stays.of_frame fun x _ => congrFun hget x).denotes hd).held, hlive2] at hheld
    have hleaks : leaks [] = 0 := rfl
    dsimp only at hheld
    omega

/-- **What a parse costs**: the blocks of the tree, and a string lost for every value without quotes and
brackets. -/
theorem parse_cost {w : World} {J : Json} (he : w.ending = .eof) (hg : w.Grants w.requests)
    (hd : Document J w.input) : ∃ t w', Returns w (true, some t.addr) w' ∧ IsTree w'.heap t J ∧
      w'.heap.live.card = w.heap.live.card + J.blocks + J.bares := by
  obtain ⟨t, w', s, hret, hm, hden, hlive⟩ := document_made he hg hd
  exact ⟨t, w', hret, ⟨hm.grown.hangs, hm.grown.owned.nodup, hden⟩, hlive⟩

/-- A number: a node and its text, and the lexeme is lost. -/
theorem parse_cost_one : ∃ t w', Returns (World.start (cs " 1") .eof) (true, some t.addr) w' ∧
    IsTree w'.heap t (.int (cs "1")) ∧ w'.heap.live.card = 3 :=
  parse_cost rfl (World.Ample.grants (start_ample _ _) _) one_document

end JsonDom
