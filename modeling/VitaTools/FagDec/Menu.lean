import VitaTools.Library.Linked
import VitaTools.Library.Transition

set_option autoImplicit false

/-!
`menu.c`: the entries of a menu are a doubly linked list in the heap. A dereferenced `NULL` or freed
pointer has no result, nor has a loop that needs more passes than `steps`.
-/

namespace VitaTools.FagDec

open VitaTools.Library

inductive MenuDrawType
  | title
  | subtitle
  | normal
deriving DecidableEq, Repr

inductive MenuType
  | none
  | warning
  | bad
  | enter
  | back
  | cancel
  | start
  | disable
deriving DecidableEq, Repr

inductive MenuPaneSide
  | left
  | right
  | fullscreen
deriving DecidableEq, Repr

inductive MenuDir
  | up
  | down
deriving DecidableEq, Repr

structure MenuEntry where
  drawType : MenuDrawType
  type : MenuType
  active : Bool
  index : Int
  text : List (BitVec 8)
  clickCb : Option Address
  next : Option Address
  prev : Option Address

structure Menu where
  visible : Bool
  entryIndex : Int
  entryTop : Int
  entrySelected : Option Address
  pane : MenuPaneSide
  entryStart : Option Address
  entryEnd : Option Address

abbrev Entries := Heap MenuEntry

-- `strncpy` into a field of `size` bytes: cut, or filled with zeros.
def strncpy (size : Nat) (text : List (BitVec 8)) : List (BitVec 8) :=
  text.take size ++ List.replicate (size - text.length) 0

def menuCreate (pane : MenuPaneSide) : Menu := ⟨true, 0, 0, none, pane, none, none⟩

-- `p->next = next` and the like. Nothing is written through `NULL` or a freed pointer.
def change (heap : Entries) (p : Address) (f : MenuEntry → MenuEntry) : Option Entries :=
  (heap p).map fun entry => Function.update heap p (some (f entry))

/-- `fresh` is what `malloc` returns. -/
def menuAddEntry (heap : Entries) (menu : Menu) (fresh : Address) (drawType : MenuDrawType)
    (text : List (BitVec 8)) (clickCb : Option Address) : Option (Entries × Menu) := do
  let entry : MenuEntry :=
    { drawType, clickCb
      type := if drawType ≠ .normal then .disable else .none
      active := false
      index := menu.entryIndex
      text := strncpy 128 text
      next := none
      prev := menu.entryEnd }
  let menu := { menu with entryIndex := menu.entryIndex + 1 }
  let heap := Function.update heap fresh (some entry)
  let (heap, menu) ← match menu.entryEnd with
    | some last => (change heap last fun last => { last with next := some fresh }).map (·, menu)
    | none => some (heap, if menu.entryStart = none then { menu with entryStart := some fresh }
        else menu)
  let menu := { menu with entryEnd := some fresh }
  return (heap, if drawType = .normal ∧ menu.entrySelected = none then
    { menu with entrySelected := some fresh } else menu)

-- One direction of `MenuFindNextEntry`.
def findAlong (link : MenuEntry → Option Address) (heap : Entries) (startEntry : Address) :
    Nat → Address → Option Address
  | 0, _ => none
  | steps + 1, p => do
      match link (← heap p) with
      | none => return startEntry
      | some q =>
          if (← heap q).type ≠ .disable then return q
          findAlong link heap startEntry steps q

def menuFindNextEntry (steps : Nat) (heap : Entries) (startEntry : Address) :
    MenuDir → Option Address
  | .down => findAlong MenuEntry.next heap startEntry steps startEntry
  | .up => findAlong MenuEntry.prev heap startEntry steps startEntry

-- The selection in front of the deletion of `entry`.
def reselect (steps : Nat) (heap : Entries) (menu : Menu) (entry : Address) (index : Int) :
    Option Menu := do
  match menu.entrySelected with
  | none => return menu
  | some selected =>
      if (← heap selected).index ≠ index then return menu
      let above ← menuFindNextEntry steps heap entry .up
      let menu := { menu with entrySelected := some above }
      if (← heap above).index ≠ index then return menu
      -- `if(menu->entry_selected = MenuFindNextEntry(...))`: the pointer is the condition
      let below ← menuFindNextEntry steps heap entry .down
      let menu := { menu with entrySelected := some below }
      return if menu.entrySelected ≠ none then { menu with entrySelected := none } else menu

def unlinkPrev (heap : Entries) (menu : Menu) (entry : MenuEntry) : Option (Entries × Menu) :=
  match entry.prev with
  | some prev => (change heap prev fun e => { e with next := entry.next }).map (·, menu)
  | none => some (heap, { menu with entryStart := entry.next })

def unlinkNext (heap : Entries) (menu : Menu) (entry : MenuEntry) : Option (Entries × Menu) :=
  match entry.next with
  | some next => (change heap next fun e => { e with prev := entry.prev }).map (·, menu)
  | none => some (heap, { menu with entryEnd := entry.prev })

def deleteLoop (steps : Nat) (index : Int) :
    Nat → Entries → Menu → Option Address → Option (Entries × Menu)
  | 0, _, _, _ => none
  | _ + 1, heap, menu, none => some (heap, menu)
  | passes + 1, heap, menu, some p => do
      let entry ← heap p
      if entry.index = index then
        let menu ← reselect steps heap menu p index
        let (heap, menu) ← unlinkPrev heap menu entry
        let (heap, menu) ← unlinkNext heap menu entry
        let heap := Function.update heap p none
        let menu := { menu with entryIndex := menu.entryIndex - 1 }
        deleteLoop steps index passes heap menu entry.next
      else if index < entry.index then
        let heap ← change heap p fun entry => { entry with index := entry.index - 1 }
        deleteLoop steps index passes heap menu entry.next
      else deleteLoop steps index passes heap menu entry.next

def menuDeleteEntry (steps : Nat) (heap : Entries) (menu : Menu) (index : Int) :
    Option (Entries × Menu) :=
  if menu.entryIndex < index then some (heap, menu)
  else deleteLoop steps index steps heap menu menu.entryStart

structure MenuState where
  heap : Entries
  menu : Menu

inductive MenuAction
  | add (fresh : Address) (drawType : MenuDrawType) (text : List (BitVec 8))
      (clickCb : Option Address)
  | delete (steps : Nat) (index : Int)
  -- `menu->entry_selected = MenuFindNextEntry(menu->entry_selected, dir)`
  | move (steps : Nat) (dir : MenuDir)
  -- A caller sets the type of an entry.
  | setType (entry : Address) (type : MenuType)

def menus : Transitions MenuState MenuAction where
  step s
    | .add fresh drawType text clickCb =>
        (menuAddEntry s.heap s.menu fresh drawType text clickCb).map fun t => ⟨t.1, t.2⟩
    | .delete steps index => (menuDeleteEntry steps s.heap s.menu index).map fun t => ⟨t.1, t.2⟩
    | .move steps dir => do
        let next ← menuFindNextEntry steps s.heap (← s.menu.entrySelected) dir
        return { s with menu := { s.menu with entrySelected := some next } }
    | .setType entry type =>
        (change s.heap entry fun entry => { entry with type }).map fun heap => { s with heap }

/-- `malloc` returns memory that is not in use, and no index is negative. -/
def MenuAction.Proper (s : MenuState) : MenuAction → Prop
  | .add fresh _ _ _ => s.heap fresh = none
  | .delete _ index => 0 ≤ index
  | _ => True

abbrev MenuReached (heap : Entries) (pane : MenuPaneSide) (s : MenuState) : Prop :=
  menus.Reachable MenuAction.Proper ⟨heap, menuCreate pane⟩ s

end VitaTools.FagDec
