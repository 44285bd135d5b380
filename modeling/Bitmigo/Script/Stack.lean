import Bitmigo.Script.Opcode

/-
  The interpreter's data stack.

  Key definitions include:
    * `Element`, a byte string of at most 520 bytes
    * `Stack`, a list of elements with the top first
    * `Stack.require`, `push`, `pop`, `top`, `swap`, `remove` and `insert`

  Depths are counted from the top, from one: `top 1` is the top element. The source keeps the items
  in a vector with the top last; here the top is the head of the list, so the item at depth `d` is
  the one at index `d - 1`. Every push asserts the element size, so the bound is part of the
  element's type.
-/

namespace Bitmigo

open Result List

def maxScriptElementSize : Nat := 520

/- A stack element: its size is asserted on every push. -/
abbrev Element :=
  { item : Bytes // item.length ≤ maxScriptElementSize }

/- The stack, top first. -/
structure Stack where
  items : List Element
  deriving DecidableEq

namespace Stack

variable {stack : Stack} {depth count : Nat} {item : Bytes}

/- The empty stack. -/
def new : Stack := ⟨[]⟩

/- The element with these bytes, or the failed size assertion. -/
def element (item : Bytes) : Result ScriptError Element :=
  if h : item.length ≤ maxScriptElementSize then
    .ok ⟨item, h⟩
  else
    panicked

/- The stack of these items, the last of them on top. -/
def fromItems (items : List Bytes) : Result ScriptError Stack := do
  let elements ← items.mapM element
  return ⟨elements.reverse⟩

def len (stack : Stack) : Nat :=
  stack.items.length

def isEmpty (stack : Stack) : Bool :=
  stack.items.isEmpty

/- Fail unless the stack has `count` elements. -/
def require (stack : Stack) (count : Nat) : Result ScriptError Unit :=
  ensure .invalidStackOperation (count ≤ stack.items.length)

def push (stack : Stack) (item : Bytes) : Result ScriptError Stack := do
  let item ← element item
  return ⟨item :: stack.items⟩

/- The bytes of a truth value. -/
def boolItem (value : Bool) : Bytes :=
  if value then [1] else []

def pushBool (stack : Stack) (value : Bool) : Result ScriptError Stack :=
  stack.push (boolItem value)

def pop (stack : Stack) : Result ScriptError (Element × Stack) :=
  match stack.items with
  | [] => panicked
  | item :: rest => .ok (item, ⟨rest⟩)

/- The index of the item at `depth`. -/
def indexAtDepth (stack : Stack) (depth : Nat) : Result ScriptError Nat := do
  assert (1 ≤ depth)
  assert (depth ≤ stack.items.length)
  return depth - 1

def top (stack : Stack) (depth : Nat) : Result ScriptError Element := do
  let index ← stack.indexAtDepth depth
  expect stack.items[index]?

def swap (stack : Stack) (a b : Nat) : Result ScriptError Stack := do
  let indexA ← stack.indexAtDepth a
  let indexB ← stack.indexAtDepth b
  let itemA ← expect stack.items[indexA]?
  let itemB ← expect stack.items[indexB]?
  return ⟨(stack.items.set indexA itemB).set indexB itemA⟩

def remove (stack : Stack) (depth : Nat) : Result ScriptError (Element × Stack) := do
  let index ← stack.indexAtDepth depth
  let item ← expect stack.items[index]?
  return (item, ⟨stack.items.eraseIdx index⟩)

/- Insert below the item at `depth`. -/
def insert (stack : Stack) (depth : Nat) (item : Bytes) : Result ScriptError Stack := do
  let item ← element item
  let index ← stack.indexAtDepth depth
  return ⟨stack.items.insertIdx (index + 1) item⟩

--------
-- What the Operations Do
--------

theorem element_of_le (hSize : item.length ≤ maxScriptElementSize) :
    element item = .ok ⟨item, hSize⟩ := by
  simp [element, hSize]

@[simp] theorem element_val (item : Element) : element item.val = .ok item := by
  simp [element, item.property]

theorem push_of_le (hSize : item.length ≤ maxScriptElementSize) :
    stack.push item = .ok ⟨⟨item, hSize⟩ :: stack.items⟩ := by
  simp [push, element_of_le hSize]

@[simp] theorem push_val (stack : Stack) (item : Element) :
    stack.push item.val = .ok ⟨item :: stack.items⟩ := by
  simp [push]

/- A push puts its bytes on top. -/
theorem push_eq_ok {next : Stack} (hPush : stack.push item = .ok next) :
    ∃ top : Element, top.val = item ∧ next.items = top :: stack.items := by
  unfold push element at hPush
  split at hPush
  · cases hPush
    exact ⟨⟨item, _⟩, rfl, rfl⟩
  · cases hPush

theorem length_boolItem_le (value : Bool) : (boolItem value).length ≤ maxScriptElementSize := by
  cases value <;> simp [boolItem, maxScriptElementSize]

@[simp] theorem pushBool_eq (stack : Stack) (value : Bool) :
    stack.pushBool value = .ok ⟨⟨boolItem value, length_boolItem_le value⟩ :: stack.items⟩ := by
  simp [pushBool, push_of_le (length_boolItem_le value)]

@[simp] theorem pop_cons (item : Element) (rest : List Element) :
    pop ⟨item :: rest⟩ = .ok (item, ⟨rest⟩) := rfl

theorem pop_eq_ok {rest : Stack} {item : Element} :
    stack.pop = .ok (item, rest) ↔ stack.items = item :: rest.items := by
  rcases stack with ⟨_ | ⟨first, items⟩⟩
  · simp [pop, panicked]
  · rcases rest with ⟨rest⟩
    simp [pop]

theorem indexAtDepth_of_le (hLow : 1 ≤ depth) (hHigh : depth ≤ stack.items.length) :
    stack.indexAtDepth depth = .ok (depth - 1) := by
  simp [indexAtDepth, assert, hLow, hHigh]

theorem top_of_le (stack : Stack) (hLow : 1 ≤ depth) (hHigh : depth ≤ stack.items.length) :
    stack.top depth = .ok (stack.items.get ⟨depth - 1, by omega⟩) := by
  have hIndex : depth - 1 < stack.items.length := by omega
  simp [top, indexAtDepth_of_le hLow hHigh, hIndex]

theorem top_one_of_items {item : Element} {rest : List Element}
    (hItems : stack.items = item :: rest) : stack.top 1 = .ok item := by
  simp [top, indexAtDepth, hItems]

theorem pop_safe (hNe : 1 ≤ stack.items.length) :
    stack.pop.Safe (fun result => result.2.items.length + 1 = stack.items.length) := by
  rcases stack with ⟨_ | ⟨item, rest⟩⟩
  · simp at hNe
  · simp

theorem remove_safe (stack : Stack) (hLow : 1 ≤ depth) (hHigh : depth ≤ stack.items.length) :
    (stack.remove depth).Safe (fun result => result.2.items.length + 1 = stack.items.length) := by
  have hIndex : depth - 1 < stack.items.length := by omega
  simp [remove, indexAtDepth_of_le hLow hHigh, hIndex, length_eraseIdx]
  omega

theorem fromItems_safe {items : List Bytes}
    (hSizes : ∀ item ∈ items, item.length ≤ maxScriptElementSize) :
    (fromItems items).Safe (fun stack => stack.items.length = items.length) := by
  have hElements : ∃ elements : List Element,
      items.mapM element = .ok elements ∧ elements.length = items.length := by
    induction items with
    | nil => exact ⟨[], rfl, rfl⟩
    | cons item rest ih =>
      rcases ih (fun other hOther => hSizes other (mem_cons_of_mem _ hOther)) with
        ⟨elements, hMap, hLen⟩
      have hSize := hSizes item mem_cons_self
      refine ⟨⟨item, hSize⟩ :: elements, ?_, by simp [hLen]⟩
      simp [mapM_cons, element_of_le hSize, hMap]
  rcases hElements with ⟨elements, hMap, hLen⟩
  simp [fromItems, hMap, hLen]

--------
-- Operands
--------

/- Some of the elements of a stack, from a depth down. -/
def operands (stack : Stack) (depth count : Nat) : List Element :=
  (stack.items.drop (depth - 1)).take count

theorem length_operands (hLow : 1 ≤ depth) (hHigh : depth + count ≤ stack.items.length + 1) :
    (stack.operands depth count).length = count := by
  rw [operands, length_take, length_drop]
  omega

/- An operand is what stands at its depth. -/
theorem top_eq_operand {i : Nat} (hLow : 1 ≤ depth) (hHigh : depth + count ≤ stack.items.length + 1)
    (hIndex : i < (stack.operands depth count).length) :
    stack.top (depth + i) = .ok (stack.operands depth count)[i] := by
  rw [length_operands hLow hHigh] at hIndex
  rw [top_of_le stack (by omega) (by omega)]
  simp only [operands, getElem_take, getElem_drop,
    get_eq_getElem, show depth + i - 1 = depth - 1 + i by
      omega]

/- One more operand is the element below the others. -/
theorem operands_succ (hLow : 1 ≤ depth) (hHigh : depth + count ≤ stack.items.length) :
    ∃ item, stack.top (depth + count) = .ok item ∧
      stack.operands depth (count + 1) = stack.operands depth count ++ [item] := by
  have hIndex : depth + count - 1 < stack.items.length := by omega
  refine ⟨stack.items[depth + count - 1], top_of_le stack (by omega) hHigh, ?_⟩
  rw [operands, operands, take_add_one, getElem?_drop,
    show depth - 1 + count = depth + count - 1 by omega,
    getElem?_eq_getElem hIndex]
  rfl

/- The first operand and those below it. -/
theorem operands_cons (hLow : 1 ≤ depth) (hHigh : depth ≤ stack.items.length) (count : Nat) :
    ∃ item, stack.top depth = .ok item ∧
      stack.operands depth (count + 1) = item :: stack.operands (depth + 1) count := by
  have hIndex : depth - 1 < stack.items.length := by omega
  refine ⟨stack.items[depth - 1], top_of_le stack hLow hHigh, ?_⟩
  rw [operands, operands, drop_eq_getElem_cons hIndex,
    take_succ_cons, Nat.sub_add_cancel hLow, Nat.add_sub_cancel]

end Stack

end Bitmigo
