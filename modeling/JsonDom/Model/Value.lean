import JsonDom.Model.Stringify

/-!
# The values of `jsondom.c`

The two recursions go from a property to its label and its value; they run with the number of cells
as fuel.
-/

namespace JsonDom

/-- `strlen`. -/
def strlen (p : Ptr) : M Nat := do
  let text ← getString p
  pure text.length

/-- The bytes `memcpy` reads behind a pointer of a payload. -/
def getBytes (p : Ptr) : M Bytes := do
  match ← load p with
  | .text block => pure block
  | _ => halt .badAccess

/-- The switch of `jd_node_value_length`. -/
def jdNodeValueLength.run : Nat → Ptr → M Int
  | 0, _ => halt .timeout
  | fuel + 1, node => do
    let n ← getNode node
    match n.type with
    | .jdNull | .jdTrue => pure 5
    | .jdFalse => pure 6
    | .jdString | .jdInteger | .jdFloat => do
      let len ← strlen n.payload
      pure (toInt (1 + len))
    | .jdArray => pure 8
    | .jdObject => pure 9
    | .jdProperty => do
      let label ← jdNodeValueLength.run fuel n.firstChild
      let value ← jdNodeValueLength.run fuel n.lastChild
      -- the colon between, the NUL after
      addInt (← addInt label value) 2

/-- `jd_node_value_length`. -/
def jdNodeValueLength (node : Ptr) : M Int := fun w => jdNodeValueLength.run w.heap.size node w

/-- `jd_node_value` on the buffer from `bptr` on. -/
def jdNodeValue.run : Nat → Ptr → Ptr → Int → Int → M Int
  | 0, _, _, _, _ => halt .timeout
  | fuel + 1, node, buffer, bptr, bufflen => do
    let n ← getNode node
    let lenRequired ← jdNodeValueLength node
    if lenRequired ≤ bufflen then
      match n.type with
      | .jdNull => memcpy buffer bptr (cs "null" ++ [0]) lenRequired
      | .jdTrue => memcpy buffer bptr (cs "true" ++ [0]) lenRequired
      | .jdFalse => memcpy buffer bptr (cs "false" ++ [0]) lenRequired
      | .jdString | .jdInteger | .jdFloat => do
        memcpy buffer bptr (← getBytes n.payload) lenRequired
      | .jdArray => memcpy buffer bptr (cs "*array*" ++ [0]) lenRequired
      | .jdObject => memcpy buffer bptr (cs "*object*" ++ [0]) lenRequired
      | .jdProperty => do
        let tlen ← jdNodeValueLength n.firstChild
        let tlen ← addInt tlen (-1)
        let label ← getNode n.firstChild
        memcpy buffer bptr (← getBytes label.payload) tlen
        putChar buffer (bptr + tlen) (ch ':')
        let rest ← addInt (← addInt lenRequired (-tlen)) (-1)
        let _ ← jdNodeValue.run fuel n.lastChild buffer (bptr + tlen + 1) rest
    pure lenRequired

/-- `jd_node_value`. -/
def jdNodeValue (node buffer : Ptr) (bufflen : Int) : M Int :=
  fun w => jdNodeValue.run w.heap.size node buffer 0 bufflen w

end JsonDom
