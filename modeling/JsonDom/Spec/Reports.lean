import JsonDom.Spec.Requests

/-!
# What has been reported when a request is made

The requests of a run between the ends of its collections, each of which leaves a report in the error
record: a function of the file, with the frames and the fuel of the reader. Without the ends these are
the requests of `JsonDom/Spec/Requests.lean` (`requestsOf_value`).
-/

namespace JsonDom

/-- A block is asked for, or a collection ends. -/
inductive Event
  | asks (r : Request)
  | ended
deriving DecidableEq, Repr

namespace Event

def request? : Event → Option Request
  | asks r => some r
  | ended => none

end Event

def requestsOf (es : List Event) : List Request := es.filterMap Event.request?

/-- The first request that is refused is made before any report, and not of a collection, whose refusal
is reported. The oracle has answered `n` requests before. -/
def silent (oracle : Nat → Bool) : Nat → List Event → Bool
  | _, [] => true
  | _, .ended :: _ => false
  | n, .asks r :: es => if oracle n then silent oracle (n + 1) es else r != .collection

namespace Reader

mutual

def valueEvents : Nat → UInt8 → Src → List Event
  | 0, _, _ => []
  | fuel + 1, firstChar, s =>
    match blanks fuel (if firstChar ≠ 0 then firstChar else ch ' ') s with
    | .ok chr s =>
      if chr = ch '[' then collectionEvents fuel .arr s
      else if chr = ch '{' then collectionEvents fuel .obj s
      else (scalarRequests chr s).map .asks
    | _ => []

def collectionEvents : Nat → Kind → Src → List Event
  | 0, _, _ => []
  | fuel + 1, kind, s => .asks .collection :: itemsEvents fuel kind [] false s

def itemsEvents : Nat → Kind → List (Bytes × Json) → Bool → Src → List Event
  | 0, _, _, _, _ => []
  | fuel + 1, kind, acc, needsMember, s =>
    match s.read with
    | (.one chr, s) =>
      if isspace chr then itemsEvents fuel kind acc needsMember s
      else if needsMember then
        if chr = ch ',' then [] else itemEvents fuel kind acc chr s
      else if chr = kind.closeChar then [.ended]
      else if chr = ch ']' || chr = ch '}' then []
      else if chr = ch ',' then
        if acc = [] then [] else itemsEvents fuel kind acc true s
      else if acc ≠ [] then []
      else itemEvents fuel kind acc chr s
    | _ => []

def itemEvents : Nat → Kind → List (Bytes × Json) → UInt8 → Src → List Event
  | 0, _, _, _, _ => []
  | fuel + 1, kind, acc, chr, s =>
    memberEvents fuel kind chr s ++
      match member fuel kind chr s with
      | .ok (x, stop) s =>
        let endChar := stop.getD 0
        if endChar = ch ',' then itemsEvents fuel kind (acc ++ [x]) true s
        else if endChar = kind.closeChar then [.ended]
        else if (endChar = ch '"' && chr = ch '"') || endChar = 0 || isspace endChar then
          itemsEvents fuel kind (acc ++ [x]) false s
        else []
      | _ => []

def memberEvents : Nat → Kind → UInt8 → Src → List Event
  | 0, _, _, _ => []
  | fuel + 1, .arr, chr, s => valueEvents fuel chr s
  | fuel + 1, .obj, chr, s => propertyEvents fuel chr s

def propertyEvents : Nat → UInt8 → Src → List Event
  | 0, _, _ => []
  | fuel + 1, chr, s =>
    if chr ≠ ch '"' then []
    else
      (quotedRequests s).map .asks ++
        match quoted s with
        | .ok _ s => afterLabelEvents fuel false s
        | _ => []

def afterLabelEvents : Nat → Bool → Src → List Event
  | 0, _, _ => []
  | fuel + 1, pastColon, s =>
    match s.read with
    | (.one chr, s) =>
      if isspace chr then afterLabelEvents fuel pastColon s
      else if chr = ch ':' then afterLabelEvents fuel true s
      else if pastColon then
        valueEvents fuel chr s ++
          match value fuel chr s with
          | .ok _ _ => [.asks .property, .asks .label]
          | _ => []
      else []
    | _ => []

end

end Reader

/-! ## The requests among the events -/

@[simp] theorem requestsOf_nil : requestsOf [] = [] := rfl

@[simp] theorem requestsOf_append (es es' : List Event) :
    requestsOf (es ++ es') = requestsOf es ++ requestsOf es' := List.filterMap_append

@[simp] theorem requestsOf_asks (r : Request) (es : List Event) :
    requestsOf (.asks r :: es) = r :: requestsOf es := rfl

@[simp] theorem requestsOf_ended (es : List Event) : requestsOf (.ended :: es) = requestsOf es := rfl

@[simp] theorem requestsOf_map (rs : List Request) : requestsOf (rs.map .asks) = rs := by
  induction rs with
  | nil => rfl
  | cons r rs ih => rw [List.map_cons, requestsOf_asks, ih]

open Reader

/-- Without the ends of collections the events are the requests. -/
structure SameRequests (fuel : Nat) : Prop where
  value : ∀ chr s, requestsOf (valueEvents fuel chr s) = valueRequests fuel chr s
  collection : ∀ k s, requestsOf (collectionEvents fuel k s) = collectionRequests fuel k s
  items : ∀ k acc needs s, requestsOf (itemsEvents fuel k acc needs s) = itemsRequests fuel k acc needs s
  item : ∀ k acc chr s, requestsOf (itemEvents fuel k acc chr s) = itemRequests fuel k acc chr s
  member : ∀ k chr s, requestsOf (memberEvents fuel k chr s) = memberRequests fuel k chr s
  property : ∀ chr s, requestsOf (propertyEvents fuel chr s) = propertyRequests fuel chr s
  afterLabel : ∀ past s, requestsOf (afterLabelEvents fuel past s) = afterLabelRequests fuel past s

theorem sameRequests (fuel : Nat) : SameRequests fuel := by
  induction fuel with
  | zero =>
    exact ⟨fun _ _ => rfl, fun _ _ => rfl, fun _ _ _ _ => rfl, fun _ _ _ _ => rfl,
      fun k _ _ => by cases k <;> rfl, fun _ _ => rfl, fun _ _ => rfl⟩
  | succ fuel ih =>
    constructor
    case value =>
      intro chr s
      unfold valueEvents valueRequests
      cases blanks fuel (if chr ≠ 0 then chr else ch ' ') s with
      | ok chr s => simp only [apply_ite requestsOf, ih.collection, requestsOf_map]
      | fail | timeout => rfl
    case collection =>
      intro k s
      unfold collectionEvents collectionRequests
      rw [requestsOf_asks, ih.items]
    case items =>
      intro k acc needs s
      unfold itemsEvents itemsRequests
      obtain ⟨r, s⟩ := s.read
      cases r with
      | one chr => simp only [apply_ite requestsOf, ih.items, ih.item, requestsOf_nil, requestsOf_ended]
      | zero | minusOne => rfl
    case item =>
      intro k acc chr s
      unfold itemEvents itemRequests
      rw [requestsOf_append, ih.member]
      cases member fuel k chr s with
      | ok p s => simp only [apply_ite requestsOf, ih.items, requestsOf_nil, requestsOf_ended]
      | fail | timeout => rfl
    case member =>
      intro k chr s
      cases k with
      | arr => exact ih.value chr s
      | obj => exact ih.property chr s
    case property =>
      intro chr s
      unfold propertyEvents propertyRequests
      split
      · rfl
      · rw [requestsOf_append, requestsOf_map]
        cases quoted s with
        | ok label s => rw [ih.afterLabel]
        | fail | timeout => rfl
    case afterLabel =>
      intro past s
      unfold afterLabelEvents afterLabelRequests
      obtain ⟨r, s⟩ := s.read
      cases r with
      | zero | minusOne => rfl
      | one chr =>
        simp only [apply_ite requestsOf, ih.afterLabel, requestsOf_append, ih.value, requestsOf_nil]
        cases value fuel chr s <;> rfl

end JsonDom
