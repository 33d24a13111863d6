import JsonDom.Spec.Requests
import JsonDom.Spec.Scan

/-!
# One round of the loop of a collection

What the loop does with a byte depends on whether there are members and whether one is due (`loopAct`).
The reader, its requests and the automaton are put in this form here, the parser in
`JsonDom/Proof/Refine.lean`; what is known of the byte in each case is said once.
-/

namespace JsonDom

/-- What the loop does with a byte. -/
inductive Act
  /-- It goes round again; whether a member is due then. -/
  | again (needs : Bool)
  | member
  | done
  | fail (c : Check)

namespace Act

variable {α β : Type}

def elim (again : Bool → α) (member done : α) (fail : Check → α) : Act → α
  | .again needs => again needs
  | .member => member
  | .done => done
  | .fail c => fail c

end Act

def loopAct (k : Kind) (has needs : Bool) (chr : UInt8) : Act :=
  if isspace chr then .again needs
  else if needs then if chr = ch ',' then .fail .commaWithoutMember else .member
  else if chr = k.closeChar then .done
  else if chr = ch ']' || chr = ch '}' then .fail .wrongEndChar
  else if chr = ch ',' then if has then .again true else .fail .commaWithoutMember
  else if has then .fail .missingComma
  else .member

section

variable {k : Kind} {has needs flag : Bool} {chr : UInt8}

theorem loopAct_elim {α : Type} (g : Bool → α) (m d : α) (f : Check → α) :
    (loopAct k has needs chr).elim g m d f =
      if isspace chr then g needs
      else if needs then if chr = ch ',' then f .commaWithoutMember else m
      else if chr = k.closeChar then d
      else if chr = ch ']' || chr = ch '}' then f .wrongEndChar
      else if chr = ch ',' then if has then g true else f .commaWithoutMember
      else if has then f .missingComma
      else m := by
  unfold loopAct
  split_ifs <;> rfl

/-- The loop goes round again behind a blank, and behind a comma between two members. -/
theorem loopAct_again (h : loopAct k has needs chr = .again flag) :
    isspace chr = true ∧ flag = needs ∨
      chr = ch ',' ∧ needs = false ∧ has = true ∧ flag = true := by
  unfold loopAct at h
  split_ifs at h with h1 h2 h3 h4 h5 h6 h7 h8 <;> cases h
  · exact .inl ⟨h1, rfl⟩
  · exact .inr ⟨h6, by simpa using h2, h7, rfl⟩

/-- A member begins where one is due, and where there is none yet. -/
theorem loopAct_member (h : loopAct k has needs chr = .member) :
    isspace chr = false ∧ (needs = true ∨ has = false) := by
  unfold loopAct at h
  split_ifs at h with h1 h2 h3 h4 h5 h6 h7 h8 <;> cases h
  · exact ⟨by simpa using h1, .inl h2⟩
  · exact ⟨by simpa using h1, .inr (by simpa using h8)⟩

theorem loopAct_done (h : loopAct k has needs chr = .done) : needs = false ∧ chr = k.closeChar := by
  unfold loopAct at h
  split_ifs at h with h1 h2 h3 h4 h5 h6 h7 h8
  all_goals cases h
  exact ⟨by simpa using h2, h4⟩

/-- A check that fails here is reported. -/
theorem loopAct_fail {c : Check} (h : loopAct k has needs chr = .fail c) : ∃ m, c.message = some m := by
  unfold loopAct at h
  split_ifs at h
  all_goals
    cases h
    exact ⟨_, rfl⟩

end

/-! ## The reader -/

namespace Reader

variable {fuel : Nat} {k : Kind} {acc : List (Bytes × Json)} {needs : Bool} {chr : UInt8} {s s' : Src}

theorem items_one (hr : s.read = (.one chr, s')) :
    items (fuel + 1) k acc needs s = (loopAct k (acc ≠ []) needs chr).elim
      (fun needs => items fuel k acc needs s') (item fuel k acc chr s') (.ok acc s') s'.fail := by
  rw [loopAct_elim, items, hr]
  by_cases hacc : acc = [] <;> simp [hacc]

theorem itemsRequests_one (hr : s.read = (.one chr, s')) :
    itemsRequests (fuel + 1) k acc needs s = (loopAct k (acc ≠ []) needs chr).elim
      (fun needs => itemsRequests fuel k acc needs s') (itemRequests fuel k acc chr s') [] fun _ => [] := by
  rw [loopAct_elim, itemsRequests, hr]
  by_cases hacc : acc = [] <;> simp [hacc]

end Reader

/-! ## The automaton -/

theorem Scan.step_items {st : Scan} {k : Kind} {stack : List Kind} (hst : st.stack = k :: stack) (has needs : Bool)
    (b : UInt8) : (st.enter (.items has needs)).step b = (loopAct k has needs b).elim
      (fun needs => { st with offset := st.offset + 1 }.enter (.items has needs))
      ({ st with offset := st.offset + 1 }.member b) { st with offset := st.offset + 1 }.close
      fun c => { st with offset := st.offset + 1 }.enter (.reject c) := by
  rw [loopAct_elim]
  simp only [step, enter, hst]
  cases has <;> rfl

end JsonDom
