import Mathlib.Data.List.Nodup
import Mathlib.Logic.Function.Basic
import Mathlib.Logic.Relation
import JsonDom.Lib.Forest

/-!
# Forests by child lists

A `Forest` gives every node the list of its children; the parents follow from the lists, and no node
is inside itself. `Forest.hang` and `Forest.unhang` put a root into a child list and take a node out of
it. `Forest.links` is the link table of a forest, and what the two operations do to it is an update of
at most four nodes (`links_hang`, `links_unhang`).
-/

namespace Lib

/-! ## Neighbours in a list -/

section

variable {α : Type} {as us xs : List α} {r x : α} {before : Option α}

theorem head?_insert : (as ++ r :: us).head? = if as.getLast? = none then some r else (as ++ us).head? := by
  cases as with
  | nil => simp
  | cons y ys => simp

theorem getLast?_insert :
    (as ++ r :: us).getLast? = if us.head? = none then some r else (as ++ us).getLast? := by
  cases us with
  | nil => simp
  | cons y ys => simp

theorem head?_remove : (if as.getLast? = none then us.head? else (as ++ r :: us).head?) = (as ++ us).head? := by
  cases as with
  | nil => simp
  | cons y ys => simp

theorem getLast?_remove :
    (if us.head? = none then as.getLast? else (as ++ r :: us).getLast?) = (as ++ us).getLast? := by
  cases us with
  | nil => simp
  | cons y ys => simp

variable [DecidableEq α]

/-- The element behind `x`. -/
def nextIn : List α → α → Option α
  | [], _ => none
  | y :: ys, x => if x = y then ys.head? else nextIn ys x

/-- The element in front of `x`. -/
def prevIn (xs : List α) (x : α) : Option α := nextIn xs.reverse x

/-- `r` in front of `before`, at the end if this is no element. -/
def insertBefore (before : Option α) (r : α) : List α → List α
  | [] => [r]
  | y :: ys => if before = some y then r :: y :: ys else y :: insertBefore before r ys

theorem insertBefore_perm : (insertBefore before r xs).Perm (r :: xs) := by
  induction xs with
  | nil => exact .refl _
  | cons y ys ih =>
    rw [insertBefore]
    split
    · exact .refl _
    · exact (ih.cons y).trans (.swap r y ys)

theorem insertBefore_split (hb : ∀ b, before = some b → b ∈ xs) :
    ∃ as us, xs = as ++ us ∧ insertBefore before r (as ++ us) = as ++ r :: us ∧ us.head? = before := by
  induction xs with
  | nil =>
    refine ⟨[], [], rfl, rfl, ?_⟩
    cases before with
    | none => rfl
    | some b => cases hb b rfl
  | cons y ys ih =>
    by_cases hy : before = some y
    · exact ⟨[], y :: ys, rfl, if_pos hy, hy.symm⟩
    · obtain ⟨as, us, hxs, hins, hhead⟩ := ih fun b he =>
        (List.mem_cons.1 (hb b he)).resolve_left fun hby => hy (hby ▸ he)
      refine ⟨y :: as, us, by rw [hxs]; rfl, ?_, hhead⟩
      rw [List.cons_append, insertBefore, if_neg hy, hins]
      rfl

/-- How many elements stand in front of `before`. -/
def place (before : Option α) (xs : List α) : Nat :=
  match before with
  | none => xs.length
  | some b => xs.idxOf b

theorem insertBefore_eq (hb : ∀ b, before = some b → b ∈ xs) :
    insertBefore before r xs = xs.insertIdx (place before xs) r := by
  induction xs with
  | nil =>
    cases before with
    | none => rfl
    | some b => cases hb b rfl
  | cons y ys ih =>
    rw [insertBefore]
    split
    · next hy => simp [hy, place]
    · next hy =>
      have hplace : place before (y :: ys) = place before ys + 1 := by
        cases before with
        | none => rfl
        | some b => exact List.idxOf_cons_ne ys fun he => hy (he ▸ rfl)
      rw [ih fun b he => (List.mem_cons.1 (hb b he)).resolve_left fun hby => hy (hby ▸ he), hplace,
        List.insertIdx_succ_cons]

theorem place_le (hb : ∀ b, before = some b → b ∈ xs) : place before xs ≤ xs.length := by
  cases before with
  | none => exact Nat.le_refl _
  | some b => exact Nat.le_of_lt (List.idxOf_lt_length_of_mem (hb b rfl))

/-- In a list without repetitions the element behind the `i`-th is the next one. -/
theorem nextIn_getElem? (hn : xs.Nodup) {i : Nat} (hx : xs[i]? = some x) : nextIn xs x = xs[i + 1]? := by
  induction xs generalizing i with
  | nil => cases hx
  | cons y ys ih =>
    obtain ⟨hy, hn⟩ := List.nodup_cons.1 hn
    rw [nextIn]
    cases i with
    | zero =>
      rw [if_pos (by simpa using hx.symm), List.head?_eq_getElem?]
      rfl
    | succ i =>
      have hx' : ys[i]? = some x := hx
      have hne : x ≠ y := fun he => hy (he ▸ List.mem_of_getElem? hx')
      rw [if_neg hne, ih hn hx']
      rfl

theorem nextIn_insert (hnd : (as ++ us).Nodup) (hr : r ∉ as ++ us) (x : α) :
    nextIn (as ++ r :: us) x =
      if x = r then us.head? else if as.getLast? = some x then some r else nextIn (as ++ us) x := by
  induction as with
  | nil => simp [nextIn]
  | cons y as ih =>
    obtain ⟨hy, hnd⟩ := List.nodup_cons.1 hnd
    rw [List.cons_append, List.mem_cons, not_or] at hr
    have hstep := ih hnd hr.2
    rw [List.cons_append, List.cons_append, nextIn, nextIn, hstep]
    by_cases hxy : x = y
    · rw [hxy, if_pos rfl, if_pos rfl, if_neg (Ne.symm hr.1)]
      cases as with
      | nil => simp
      | cons z zs =>
        have hlast : (y :: z :: zs).getLast? ≠ some y := by
          rw [List.getLast?_cons_cons]
          exact fun he => hy (List.mem_append_left _ (List.mem_of_getLast? he))
        rw [if_neg hlast]
        rfl
    · have hlast : (y :: as).getLast? = some x ↔ as.getLast? = some x := by
        cases as with
        | nil => simp [Ne.symm hxy]
        | cons z zs => rw [List.getLast?_cons_cons]
      rw [if_neg hxy, if_neg hxy]
      simp only [hlast]

theorem prevIn_insert (hnd : (as ++ us).Nodup) (hr : r ∉ as ++ us) (x : α) :
    prevIn (as ++ r :: us) x =
      if x = r then as.getLast? else if us.head? = some x then some r else prevIn (as ++ us) x := by
  have hnd' : (us.reverse ++ as.reverse).Nodup := by
    rw [← List.reverse_append]
    exact List.nodup_reverse.2 hnd
  have hr' : r ∉ us.reverse ++ as.reverse := by
    rw [← List.reverse_append, List.mem_reverse]
    exact hr
  have hnext := nextIn_insert hnd' hr' x
  rw [List.head?_reverse, List.getLast?_reverse, ← List.reverse_append] at hnext
  rw [prevIn, List.reverse_append, List.reverse_cons, List.append_assoc]
  exact hnext

/-- Behind the last element of a part comes the first one of the rest. -/
theorem nextIn_getLast (hnd : (as ++ us).Nodup) (hx : as.getLast? = some x) :
    nextIn (as ++ us) x = us.head? := by
  obtain ⟨bs, rfl⟩ := List.getLast?_eq_some_iff.1 hx
  rw [List.append_assoc, List.singleton_append] at hnd ⊢
  obtain ⟨hmem, hnd⟩ := List.nodup_cons.1 (List.nodup_middle.1 hnd)
  rw [nextIn_insert hnd hmem, if_pos rfl]

theorem prevIn_head (hnd : (as ++ us).Nodup) (hx : us.head? = some x) :
    prevIn (as ++ us) x = as.getLast? := by
  have hnd' : (us.reverse ++ as.reverse).Nodup := by
    rw [← List.reverse_append]
    exact List.nodup_reverse.2 hnd
  have hnext : nextIn (us.reverse ++ as.reverse) x = as.reverse.head? :=
    nextIn_getLast hnd' (by rw [List.getLast?_reverse, hx])
  rw [prevIn, List.reverse_append, hnext, List.head?_reverse]

end

/-- A change of one element that the map sees as a change of its image. -/
theorem map_modify {α β : Type} {f : α → α} (g : α → β) (f' : β → β) (hf : ∀ x, g (f x) = f' (g x)) (xs : List α)
    (i : Nat) : (xs.modify i f).map g = (xs.map g).modify i f' := by
  apply List.ext_getElem?
  intro j
  simp only [List.getElem?_modify, List.getElem?_map]
  cases xs[j]? with
  | none => rfl
  | some y => by_cases hij : i = j <;> simp [hij, hf]

/-! ## Forests -/

structure Forest where
  nodes : List Nat
  up : Nat → Option Nat
  kids : Nat → List Nat
  nodup : ∀ p, (kids p).Nodup
  mem_kids : ∀ x p, x ∈ kids p ↔ up x = some p
  live : ∀ x p, up x = some p → x ∈ nodes ∧ p ∈ nodes
  acyclic : ∀ x, ¬ Relation.TransGen (fun y p => up y = some p) x x

namespace Forest

variable {F : Forest} {r p x : Nat} {before : Option Nat}

/-- `x` is in the tree below `r`, or is `r`. -/
def Inside (F : Forest) (x r : Nat) : Prop := Relation.ReflTransGen (fun y p => F.up y = some p) x r

/-- The links of a node: to its parent, to its neighbours in the parent's list, and to the two ends of
its own list. -/
def links (F : Forest) (x : Nat) : Option Links :=
  if x ∈ F.nodes then
    some
      { parent := F.up x
        next := (F.up x).bind fun p => nextIn (F.kids p) x
        first := (F.kids x).head?
        prev := (F.up x).bind fun p => prevIn (F.kids p) x
        last := (F.kids x).getLast? }
  else none

theorem links_mem (hx : x ∈ F.nodes) : F.links x = some
    { parent := F.up x
      next := (F.up x).bind fun p => nextIn (F.kids p) x
      first := (F.kids x).head?
      prev := (F.up x).bind fun p => prevIn (F.kids p) x
      last := (F.kids x).getLast? } := if_pos hx

theorem links_not_mem (hx : x ∉ F.nodes) : F.links x = none := if_neg hx

def empty : Forest where
  nodes := []
  up _ := none
  kids _ := []
  nodup _ := List.nodup_nil
  mem_kids x p := by simp
  live x p h := by cases h
  acyclic x h := by
    obtain ⟨y, hy, -⟩ := Relation.TransGen.head'_iff.1 h
    cases hy

/-- A new root. -/
def add (F : Forest) (r : Nat) : Forest where
  nodes := r :: F.nodes
  up := F.up
  kids := F.kids
  nodup := F.nodup
  mem_kids := F.mem_kids
  live x p h := ⟨List.mem_cons_of_mem r (F.live x p h).1, List.mem_cons_of_mem r (F.live x p h).2⟩
  acyclic := F.acyclic

/-- The root `r` can become a child of `p` in front of `before`. -/
structure CanHang (F : Forest) (r p : Nat) (before : Option Nat) : Prop where
  node : r ∈ F.nodes
  root : F.up r = none
  parent : p ∈ F.nodes
  outside : ¬ F.Inside p r
  before : ∀ b, before = some b → b ∈ F.kids p

/-- A way up in the new forest is one in the old forest, or it leads through the new link. -/
theorem inside_hang {y z : Nat} (hout : ¬ F.Inside p r)
    (h : Relation.ReflTransGen (fun y q => Function.update F.up r (some p) y = some q) y z) :
    F.Inside y z ∨ F.Inside y r ∧ F.Inside p z := by
  induction h with
  | refl => exact .inl .refl
  | @tail z z' _ hstep ih =>
    by_cases hz : z = r
    · rw [hz, Function.update_self] at hstep
      cases hstep
      rw [hz] at ih
      rcases ih with hyr | ⟨-, hpr⟩
      · exact .inr ⟨hyr, .refl⟩
      · exact absurd hpr hout
    · rw [Function.update_of_ne hz] at hstep
      rcases ih with hyz | ⟨hyr, hpz⟩
      · exact .inl (hyz.tail hstep)
      · exact .inr ⟨hyr, hpz.tail hstep⟩

/-- `r` becomes a child of `p`. -/
def hang (F : Forest) (r p : Nat) (before : Option Nat) (h : F.CanHang r p before) : Forest where
  nodes := F.nodes
  up := Function.update F.up r (some p)
  kids := Function.update F.kids p (insertBefore before r (F.kids p))
  nodup q := by
    by_cases hq : q = p
    · have hr : r ∉ F.kids p := fun hm => by
        rw [F.mem_kids, h.root] at hm
        cases hm
      rw [hq, Function.update_self, insertBefore_perm.nodup_iff]
      exact List.nodup_cons.2 ⟨hr, F.nodup p⟩
    · rw [Function.update_of_ne hq]
      exact F.nodup q
  mem_kids x q := by
    by_cases hq : q = p
    · rw [hq, Function.update_self, insertBefore_perm.mem_iff, List.mem_cons, F.mem_kids]
      by_cases hx : x = r
      · simp [hx]
      · simp [hx]
    · rw [Function.update_of_ne hq, F.mem_kids]
      by_cases hx : x = r
      · simp [hx, h.root, Ne.symm hq]
      · rw [Function.update_of_ne hx]
  live x q hx := by
    by_cases hxr : x = r
    · rw [hxr, Function.update_self] at hx
      cases hx
      exact ⟨hxr ▸ h.node, h.parent⟩
    · rw [Function.update_of_ne hxr] at hx
      exact F.live x q hx
  acyclic x hx := by
    obtain ⟨y, hstep, hrest⟩ := Relation.TransGen.head'_iff.1 hx
    have hway := inside_hang h.outside hrest
    by_cases hxr : x = r
    · rw [hxr, Function.update_self] at hstep
      cases hstep
      rw [hxr] at hway
      exact hway.elim h.outside fun hw => h.outside hw.2
    · rw [Function.update_of_ne hxr] at hstep
      rcases hway with hyx | ⟨hyr, hpx⟩
      · exact F.acyclic x (.head' hstep hyx)
      · exact h.outside ((hpx.tail hstep).trans hyr)

/-- `r` becomes a root. -/
def unhang (F : Forest) (r : Nat) : Forest where
  nodes := F.nodes
  up := Function.update F.up r none
  kids q := (F.kids q).erase r
  nodup q := (F.nodup q).erase r
  mem_kids x q := by
    rw [(F.nodup q).mem_erase_iff, F.mem_kids]
    by_cases hx : x = r
    · simp [hx]
    · simp [hx]
  live x q hx := by
    by_cases hxr : x = r
    · rw [hxr, Function.update_self] at hx
      cases hx
    · rw [Function.update_of_ne hxr] at hx
      exact F.live x q hx
  acyclic x hx := by
    refine F.acyclic x (Relation.TransGen.mono (fun y q hy => ?_) x x hx)
    change Function.update F.up r none y = some q at hy
    by_cases hyr : y = r
    · rw [hyr, Function.update_self] at hy
      cases hy
    · rwa [Function.update_of_ne hyr] at hy

/-! ## What the operations do to the links -/

/-- A node that is not there has no children. -/
theorem kids_fresh (hr : r ∉ F.nodes) : F.kids r = [] := by
  apply List.eq_nil_iff_forall_not_mem.2
  intro y hy
  exact hr (F.live y r ((F.mem_kids y r).1 hy)).2

theorem not_mem_self (F : Forest) (p : Nat) : F.up p ≠ some p := fun h => F.acyclic p (.single h)

/-- Hanging `r` into a child list that is cut there. -/
theorem links_hang (h : F.CanHang r p before) {as us : List Nat} (hkids : F.kids p = as ++ us)
    (hins : insertBefore before r (as ++ us) = as ++ r :: us) (x : Nat) :
    (F.hang r p before h).links x = OTree.hang F.links p r as.getLast? us.head? x := by
  have hr : r ∉ as ++ us := fun hm => by
    rw [← hkids, F.mem_kids, h.root] at hm
    cases hm
  have hnd : (as ++ us).Nodup := hkids ▸ F.nodup p
  have hrp : r ≠ p := fun he => h.outside (he ▸ .refl)
  have hmem : ∀ y, y ∈ as ++ us ↔ F.up y = some p := fun y => by rw [← hkids, F.mem_kids]
  unfold OTree.hang
  by_cases hx : x ∈ F.nodes
  swap
  · have hxr : x ≠ r := fun he => hx (he ▸ h.node)
    have hxp : x ≠ p := fun he => hx (he ▸ h.parent)
    rw [links_not_mem (show x ∉ (F.hang r p before h).nodes from hx), links_not_mem hx, if_neg hxr,
      if_neg hxp, Option.map_none, Option.map_none, ite_self, ite_self]
  rw [links_mem (show x ∈ (F.hang r p before h).nodes from hx), links_mem hx]
  dsimp only [hang]
  by_cases hxr : x = r
  · rw [if_pos hxr, hxr, Function.update_self, Function.update_of_ne hrp]
    simp only [Option.bind_some, Function.update_self, hkids, hins, nextIn_insert hnd hr,
      prevIn_insert hnd hr, if_true, Option.map_some]
  rw [if_neg hxr, Function.update_of_ne hxr]
  -- the child lists of other nodes are the old ones
  have hother : F.up x ≠ some p → ∀ f : List Nat → Nat → Option Nat,
      ((F.up x).bind fun q => f (Function.update F.kids p (insertBefore before r (F.kids p)) q) x) =
        (F.up x).bind fun q => f (F.kids q) x := by
    intro hup f
    cases hq : F.up x with
    | none => rfl
    | some q =>
      have hqp : q ≠ p := fun he => hup (hq.trans (congrArg some he))
      rw [Option.bind_some, Option.bind_some, Function.update_of_ne hqp]
  by_cases hxp : x = p
  · have hup : F.up x ≠ some p := fun he => F.not_mem_self p (hxp ▸ he)
    rw [if_pos hxp, hother hup nextIn, hother hup prevIn, hxp, Function.update_self, hkids, hins,
      head?_insert, getLast?_insert]
    rfl
  rw [if_neg hxp, Function.update_of_ne hxp]
  by_cases hup : F.up x = some p
  · simp only [hup, Option.bind_some, Function.update_self, hins, nextIn_insert hnd hr,
      prevIn_insert hnd hr, if_neg hxr, hkids]
    by_cases hlast : as.getLast? = some x
    · have hhead : us.head? ≠ some x := fun hh =>
        (List.nodup_append.1 hnd).2.2 x (List.mem_of_getLast? hlast) x (List.mem_of_mem_head? hh) rfl
      rw [if_pos hlast, if_neg hhead, if_pos hlast.symm]
      rfl
    · rw [if_neg hlast, if_neg (Ne.symm hlast)]
      by_cases hhead : us.head? = some x
      · rw [if_pos hhead, if_pos hhead.symm]
        rfl
      · rw [if_neg hhead, if_neg (Ne.symm hhead)]
  · have hlast : some x ≠ as.getLast? := fun he =>
      hup ((hmem x).1 (List.mem_append_left _ (List.mem_of_getLast? he.symm)))
    have hhead : some x ≠ us.head? := fun he =>
      hup ((hmem x).1 (List.mem_append_right _ (List.mem_of_mem_head? he.symm)))
    rw [hother hup nextIn, hother hup prevIn, if_neg hlast, if_neg hhead]

/-- Without a parent there is nothing to do. -/
theorem links_unhang_root (hup : F.up r = none) (x : Nat) : (F.unhang r).links x = F.links x := by
  have hkids : ∀ q, (F.kids q).erase r = F.kids q := fun q => List.erase_of_not_mem fun hm => by
    rw [F.mem_kids, hup] at hm
    cases hm
  have hups : Function.update F.up r none = F.up := by rw [← hup, Function.update_eq_self]
  unfold links
  dsimp only [unhang]
  simp only [hkids, hups]

/-- Taking `r` out of a child list that is cut around it. -/
theorem links_unhang (hup : F.up r = some p) {as us : List Nat} (hkids : F.kids p = as ++ r :: us)
    (x : Nat) : (F.unhang r).links x = OTree.unhang F.links p r as.getLast? us.head? x := by
  obtain ⟨hr, hnd⟩ : r ∉ as ++ us ∧ (as ++ us).Nodup :=
    List.nodup_cons.1 (List.nodup_middle.1 (hkids ▸ F.nodup p))
  have hmem : ∀ y ∈ as ++ us, F.up y = some p := fun y hy => by
    rw [← F.mem_kids, hkids]
    rcases List.mem_append.1 hy with hy | hy
    · exact List.mem_append_left _ hy
    · exact List.mem_append_right _ (List.mem_cons_of_mem _ hy)
  have herase : (as ++ r :: us).erase r = as ++ us := by
    rw [List.erase_append_right _ fun hm => hr (List.mem_append_left _ hm), List.erase_cons_head]
  have hsame : ∀ q, q ≠ p → (F.kids q).erase r = F.kids q := fun q hq =>
    List.erase_of_not_mem fun hm => by
      rw [F.mem_kids, hup] at hm
      exact hq (Option.some.inj hm).symm
  have hother : F.up x ≠ some p → ∀ f : List Nat → Nat → Option Nat,
      ((F.up x).bind fun q => f ((F.kids q).erase r) x) = (F.up x).bind fun q => f (F.kids q) x := by
    intro hne f
    cases hq : F.up x with
    | none => rfl
    | some q => rw [Option.bind_some, Option.bind_some, hsame q fun he => hne (hq.trans (congrArg some he))]
  have hrp : r ≠ p := fun he => F.not_mem_self p (he ▸ hup)
  unfold OTree.unhang
  by_cases hx : x ∈ F.nodes
  swap
  · have hxr : x ≠ r := fun he => hx (he ▸ (F.live r p hup).1)
    have hxp : x ≠ p := fun he => hx (he ▸ (F.live r p hup).2)
    rw [links_not_mem (show x ∉ (F.unhang r).nodes from hx), links_not_mem hx, if_neg hxr, if_neg hxp,
      Option.map_none, Option.map_none, ite_self, ite_self]
  rw [links_mem (show x ∈ (F.unhang r).nodes from hx), links_mem hx]
  dsimp only [unhang]
  by_cases hxr : x = r
  · rw [if_pos hxr, hxr, Function.update_self, hsame r hrp]
    rfl
  rw [if_neg hxr, Function.update_of_ne hxr]
  by_cases hxp : x = p
  · have hne : F.up x ≠ some p := fun he => F.not_mem_self p (hxp ▸ he)
    rw [if_pos hxp, hother hne nextIn, hother hne prevIn, hxp, hkids, herase, Option.map_some]
    dsimp only
    rw [head?_remove, getLast?_remove]
  rw [if_neg hxp, hsame x hxp]
  by_cases hin : F.up x = some p
  · simp only [hin, Option.bind_some, hkids, herase, nextIn_insert hnd hr, prevIn_insert hnd hr, if_neg hxr]
    by_cases hlast : as.getLast? = some x
    · have hhead : us.head? ≠ some x := fun hh =>
        (List.nodup_append.1 hnd).2.2 x (List.mem_of_getLast? hlast) x (List.mem_of_mem_head? hh) rfl
      rw [nextIn_getLast hnd hlast, if_neg hhead, if_pos hlast.symm]
      rfl
    · rw [if_neg hlast, if_neg (Ne.symm hlast)]
      by_cases hhead : us.head? = some x
      · rw [prevIn_head hnd hhead, if_pos hhead.symm]
        rfl
      · rw [if_neg hhead, if_neg (Ne.symm hhead)]
  · have hlast : some x ≠ as.getLast? := fun he =>
      hin (hmem x (List.mem_append_left _ (List.mem_of_getLast? he.symm)))
    have hhead : some x ≠ us.head? := fun he =>
      hin (hmem x (List.mem_append_right _ (List.mem_of_mem_head? he.symm)))
    rw [hother hin nextIn, hother hin prevIn, if_neg hlast, if_neg hhead]

end Forest

end Lib
