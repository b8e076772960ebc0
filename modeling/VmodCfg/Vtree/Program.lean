import VmodCfg.Lib.Footprint
import VmodCfg.Lib.Rebalance

/-!
# The trees of `vtree.h`

What `VRBT_GENERATE` defines, over the memory that holds the elements. The
fields of an element are read and written through its pointer, so that a NULL
or a dangling pointer fails, as does a loop that makes more than `bound` turns.
The two halves of each of these functions are mirror images, and are one
definition for the side.
-/

namespace VmodCfg.Vtree

open RedBlack (Color Side)
open Footprint (field update getReg setReg)

structure Entry (P : Type) where
  left : Option P
  right : Option P
  parent : Option P
  color : Color

/-- An element: what is in it, and its links. -/
structure Elem (P V : Type) where
  data : V
  entry : Entry P

/-- The register is `rbh_root`. -/
abbrev Prog (P V : Type) := Footprint.Prog (Option P) P (Elem P V)

section Fields

variable {P V : Type}

def left (elm : Option P) : Prog P V (Option P) := field elm fun e => e.entry.left

def right (elm : Option P) : Prog P V (Option P) := field elm fun e => e.entry.right

def parent (elm : Option P) : Prog P V (Option P) := field elm fun e => e.entry.parent

def color (elm : Option P) : Prog P V Color := field elm fun e => e.entry.color

def data (elm : Option P) : Prog P V V := field elm Elem.data

/-- The entry as a whole, as in `(old)->field`. -/
def entry (elm : Option P) : Prog P V (Entry P) := field elm Elem.entry

/-- `VRBT_LEFT` or `VRBT_RIGHT` -/
def child : Side → Option P → Prog P V (Option P)
  | .left, elm => left elm
  | .right, elm => right elm

/-- `elm && VRBT_COLOR(elm) == VRBT_RED` -/
def isRed : Option P → Prog P V Bool
  | none => return false
  | some elm => return (← color (some elm)) = .red

variable [DecidableEq P]

def setEntry (elm : Option P) (entry : Entry P) : Prog P V Unit :=
  update elm fun e => { e with entry := entry }

def setLeft (elm new : Option P) : Prog P V Unit :=
  update elm fun e => { e with entry := { e.entry with left := new } }

def setRight (elm new : Option P) : Prog P V Unit :=
  update elm fun e => { e with entry := { e.entry with right := new } }

def setParent (elm new : Option P) : Prog P V Unit :=
  update elm fun e => { e with entry := { e.entry with parent := new } }

def setColor (elm : Option P) (new : Color) : Prog P V Unit :=
  update elm fun e => { e with entry := { e.entry with color := new } }

def setChild : Side → Option P → Option P → Prog P V Unit
  | .left, elm, new => setLeft elm new
  | .right, elm, new => setRight elm new

/-- `if (elm) VRBT_PARENT(elm) = new` -/
def setParentOf : Option P → Option P → Prog P V Unit
  | none, _ => return ()
  | some elm, new => setParent (some elm) new

/-- `if (elm) VRBT_COLOR(elm) = new` -/
def setColorOf : Option P → Color → Prog P V Unit
  | none, _ => return ()
  | some elm, new => setColor (some elm) new

def setBlackRed (black red : Option P) : Prog P V Unit := do
  setColor black .black
  setColor red .red

/-- The pointer to `old`, in its parent or in the head, is made one to `new`. -/
def replaceChild : Option P → Option P → Option P → Prog P V Unit
  | none, _, new => setReg new
  | some parent, old, new => do
    if (← left (some parent)) = old then
      setLeft (some parent) new
    else
      setRight (some parent) new

/-- `VRBT_ROTATE_LEFT` and `VRBT_ROTATE_RIGHT`: `elm` goes down on the side. -/
def rotate (s : Side) (elm : Option P) : Prog P V Unit := do
  let tmp ← child s.other elm
  let inner ← child s tmp
  setChild s.other elm inner
  setParentOf inner elm
  let parent ← parent elm
  setParent tmp parent
  replaceChild parent elm tmp
  setChild s tmp elm
  setParent elm tmp

end Fields

variable {P V K : Type} [DecidableEq P]

/-! ## Insertion -/

/-- The elements on the outside of `parent` and in between, when `elm` was on the inside. -/
def straighten (s : Side) (elm parent : Option P) : Prog P V (Option P × Option P) := do
  if (← child s.other parent) = elm then
    rotate s parent
    return (parent, elm)
  else
    return (elm, parent)

/-- A turn of the loop of `VRBT_INSERT_COLOR`, with `parent` on the side of `gparent`: the next
`elm`. -/
def insertColorTurn (s : Side) (elm parent gparent : Option P) : Prog P V (Option P) := do
  let tmp ← child s.other gparent
  if ← isRed tmp then
    setColor tmp .black
    setBlackRed parent gparent
    return gparent
  else
    let (elm, parent) ← straighten s elm parent
    setBlackRed parent gparent
    rotate s.other gparent
    return elm

def insertColor : Nat → Option P → Prog P V Unit
  | 0, _ => failure
  | bound + 1, elm => do
    let up ← parent elm
    if ← isRed up then
      let gparent ← parent up
      let first ← left gparent
      let elm ← insertColorTurn (if up = first then .left else .right) elm up gparent
      insertColor bound elm
    else
      setColor (← getReg) .black

/-! ## Removal -/

/-- `if (VRBT_COLOR(tmp) == VRBT_RED)`: the sibling is black then. -/
def blackSibling (s : Side) (parent tmp : Option P) : Prog P V (Option P) := do
  if (← color tmp) = .red then
    setBlackRed tmp parent
    rotate s parent
    child s.other parent
  else
    return tmp

/-- The child of the sibling that is further away is red then. -/
def redFar (s : Side) (parent tmp : Option P) : Prog P V (Option P) := do
  let far ← child s.other tmp
  if ← isRed far then
    return tmp
  else
    let near ← child s tmp
    setColorOf near .black
    setColor tmp .red
    rotate s.other tmp
    child s.other parent

/-- The last turn of the loop: the sibling gets the colour of the parent, and goes up. -/
def settle (s : Side) (parent tmp : Option P) : Prog P V Unit := do
  setColor tmp (← color parent)
  setColor parent .black
  let far ← child s.other tmp
  setColorOf far .black
  rotate s parent

/-- Whether no child is red. -/
def childrenBlack (elm : Option P) : Prog P V Bool := do
  let l ← left elm
  if ← isRed l then
    return false
  else
    let r ← right elm
    return !(← isRed r)

/-- The rest of the turn, for a sibling that is black: whether the loop goes on. -/
def removeColorBlack (s : Side) (parent tmp : Option P) : Prog P V Bool := do
  if ← childrenBlack tmp then
    setColor tmp .red
    return true
  else
    let tmp ← redFar s parent tmp
    settle s parent tmp
    return false

/-- A turn of the loop of `VRBT_REMOVE_COLOR`, with `elm` on the side of `parent`: whether the loop
goes on, with the parent as `elm`. -/
def removeColorTurn (s : Side) (parent : Option P) : Prog P V Bool := do
  let tmp ← child s.other parent
  let tmp ← blackSibling s parent tmp
  removeColorBlack s parent tmp

def removeColor : Nat → Option P → Option P → Prog P V Unit
  | 0, _, _ => failure
  | bound + 1, up, elm => do
    let root ← getReg
    if (← isRed elm) || elm = root then
      setColorOf elm .black
    else
      let first ← left up
      if ← removeColorTurn (if first = elm then .left else .right) up then
        let next ← parent up
        removeColor bound next up
      else
        setColorOf (← getReg) .black

def unlink (elm child : Option P) : Prog P V (Option P × Option P × Color) := do
  let up ← parent elm
  let c ← color elm
  setParentOf child up
  replaceChild up elm child
  return (up, child, c)

/-- `while ((left = VRBT_LEFT(elm)) != NULL) elm = left` -/
def leftmost : Nat → Option P → Prog P V (Option P)
  | 0, _ => failure
  | bound + 1, elm => do
    match ← left elm with
    | none => return elm
    | some l => leftmost bound (some l)

/-- `elm` takes the place of `old`. -/
def substitute (elm old : Option P) : Prog P V Unit := do
  setEntry elm (← entry old)
  let up ← parent old
  replaceChild up old elm
  let l ← left old
  setParent l elm
  let r ← right old
  setParentOf r elm

/-- The element that follows `old` is taken out, and takes its place. -/
def unlinkNext (bound : Nat) (old : Option P) : Prog P V (Option P × Option P × Color) := do
  let elm ← leftmost bound (← right old)
  let child ← right elm
  let (up, child, c) ← unlink elm child
  let under ← parent elm
  substitute elm old
  return (if under = old then elm else up, child, c)

def detach (bound : Nat) (elm : Option P) : Prog P V (Option P × Option P × Color) := do
  let l ← left elm
  let r ← right elm
  match l, r with
  | none, child => unlink elm child
  | child, none => unlink elm child
  | some _, some _ => unlinkNext bound elm

def remove (bound : Nat) (elm : Option P) : Prog P V Unit := do
  let (up, child, c) ← detach bound elm
  if c = .black then
    removeColor bound up child
  else
    return ()

/-! ## Searching -/

section Search

variable (key : V → K) (cmp : K → K → Ordering)

def findFrom (k : K) : Nat → Option P → Prog P V (Option P)
  | 0, _ => failure
  | _ + 1, none => return none
  | bound + 1, some tmp => do
    match cmp k (key (← data (some tmp))) with
    | .lt => findFrom k bound (← left (some tmp))
    | .gt => findFrom k bound (← right (some tmp))
    | .eq => return some tmp

def find (bound : Nat) (k : K) : Prog P V (Option P) := do
  findFrom key cmp k bound (← getReg)

/-- The loop of `VRBT_INSERT`: the element with the same key, or where there is room for one. -/
def searchFrom (k : K) : Nat → Option P → Option P → Ordering → Prog P V (P ⊕ (Option P × Ordering))
  | 0, _, _, _ => failure
  | _ + 1, none, up, comp => return .inr (up, comp)
  | bound + 1, some tmp, _, _ => do
    match cmp k (key (← data (some tmp))) with
    | .lt => searchFrom k bound (← left (some tmp)) (some tmp) .lt
    | .gt => searchFrom k bound (← right (some tmp)) (some tmp) .gt
    | .eq => return .inl tmp

/-- The new element is made a child of the parent that was found. -/
def link (elm : P) : Option P → Ordering → Prog P V Unit
  | none, _ => setReg (some elm)
  | some up, .lt => setLeft (some up) (some elm)
  | some up, _ => setRight (some up) (some elm)

def insert (bound : Nat) (elm : P) : Prog P V (Option P) := do
  match ← searchFrom key cmp (key (← data (some elm))) bound (← getReg) none .eq with
  | .inl tmp => return some tmp
  | .inr (up, comp) =>
    setEntry (some elm) ⟨none, none, up, .red⟩
    link elm up comp
    insertColor bound (some elm)
    return none

end Search

/-! ## Walking -/

def minFrom : Nat → Option P → Option P → Prog P V (Option P)
  | 0, _, _ => failure
  | _ + 1, none, up => return up
  | bound + 1, some tmp, _ => do minFrom bound (← left (some tmp)) (some tmp)

/-- `VRBT_MIN` -/
def minimum (bound : Nat) : Prog P V (Option P) := do
  minFrom bound (← getReg) none

/-- `while (VRBT_PARENT(elm) && elm == VRBT_RIGHT(VRBT_PARENT(elm))) elm = VRBT_PARENT(elm)`, and the
parent after that. -/
def climb : Nat → Option P → Prog P V (Option P)
  | 0, _ => failure
  | bound + 1, elm => do
    match ← parent elm with
    | none => return none
    | some up => if (← right (some up)) = elm then climb bound (some up) else return some up

def next (bound : Nat) (elm : Option P) : Prog P V (Option P) := do
  match ← right elm with
  | some r => leftmost bound (some r)
  | none =>
    match ← parent elm with
    | none => climb bound elm
    | some up => if (← left (some up)) = elm then return some up else climb bound elm

/-- What is in the elements that `VRBT_FOREACH` visits, from one on. -/
def walkFrom (bound : Nat) : Nat → Option P → Prog P V (List V)
  | 0, _ => failure
  | _ + 1, none => return []
  | turns + 1, some elm => do
    let v ← data (some elm)
    let rest ← walkFrom bound turns (← next bound (some elm))
    return v :: rest

/-- `VRBT_FOREACH` -/
def walk (bound : Nat) : Prog P V (List V) := do
  walkFrom bound bound (← minimum bound)

/-- The body of `VRBT_FOREACH_SAFE` in a flush: the element is removed and freed. -/
def flushFrom (bound : Nat) : Nat → Option P → Prog P V Unit
  | 0, _ => failure
  | _ + 1, none => return ()
  | turns + 1, some elm => do
    let following ← next bound (some elm)
    remove bound (some elm)
    Footprint.free (some elm)
    flushFrom bound turns following

/-- `flush_global_variables` -/
def flush (bound : Nat) : Prog P V Unit := do
  flushFrom bound bound (← minimum bound)

end VmodCfg.Vtree
