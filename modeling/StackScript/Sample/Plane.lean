import StackScript.Host.Class

/-!
A world of host objects for scripts to play with: labelled points of the plane that share anchors, and tickets,
whose methods do not always give what they declare.
-/

namespace StackScript.Sample

open Host

/-- What an object of this world holds. A blank holds nothing, and has no members either. -/
inductive Item where
  | anchor (id : Float) (isActive : Bool)
  | point (x y : Float) (label : Option String) (anchor : Handle)
  | ticket
  | blank

def anchorTag : Tag := ⟨0, "Anchor"⟩

def pointTag : Tag := ⟨1, "Point"⟩

def ticketTag : Tag := ⟨2, "Ticket"⟩

def blankTag : Tag := ⟨3, "Unknown"⟩

def tagNamed : String → Tag
  | "Anchor" => anchorTag
  | "Point" => pointTag
  | "Ticket" => ticketTag
  | _ => blankTag

namespace Item

def id : Item → Float
  | anchor id _ => id
  | _ => 0

def isActive : Item → Bool
  | anchor _ isActive => isActive
  | _ => false

def x : Item → Float
  | point x _ _ _ => x
  | _ => 0

def y : Item → Float
  | point _ y _ _ => y
  | _ => 0

def label : Item → Option String
  | point _ _ label _ => label
  | _ => none

def anchorOf : Item → Handle
  | point _ _ _ held => held
  | _ => ⟨anchorTag, 0⟩

def setId : Item → Float → Item
  | anchor _ isActive, id => anchor id isActive
  | other, _ => other

def setActive : Item → Bool → Item
  | anchor id _, isActive => anchor id isActive
  | other, _ => other

def setX : Item → Float → Item
  | point _ y label held, x => point x y label held
  | other, _ => other

def setY : Item → Float → Item
  | point x _ label held, y => point x y label held
  | other, _ => other

def setLabel : Item → Option String → Item
  | point x y _ held, label => point x y label held
  | other, _ => other

end Item

def query (answer : Item → HostValue) : MethodBody Item :=
  fun item _ => pure (answer item, item)

def toggle : MethodBody Item := fun item _ =>
  let isActive := !item.isActive
  pure (.bool isActive, item.setActive isActive)

def anchorClass : HostClass Item :=
  ({ tag := anchorTag } : HostClass Item)
    |>.numberField "id" Item.id Item.setId
    |>.boolField "active" Item.isActive Item.setActive
    |>.method "toggle" [] .bool toggle

def scale : MethodBody Item := fun item args =>
  match args with
  | [.number factor] => pure (.nil, (item.setX (item.x * factor)).setY (item.y * factor))
  | _ => pure (.nil, item)

def relabel : MethodBody Item := fun item args =>
  match args with
  | [.text label, .number x, .bool moves] =>
    let item := item.setLabel label
    pure (.text label, if moves then item.setX x else item)
  | _ => pure (.nil, item)

def pointClass : HostClass Item :=
  ({ tag := pointTag } : HostClass Item)
    |>.numberField "x" Item.x Item.setX
    |>.numberField "y" Item.y Item.setY
    |>.textField "label" Item.label Item.setLabel
    |>.objectField "anchor" anchorTag Item.anchorOf
    |>.numberProperty "total" (some fun item => item.x + item.y) none
    |>.numberProperty "both" (some Item.x) (some fun item v => (item.setX v).setY v)
    |>.numberProperty "sink" none (some Item.setX)
    |>.numberProperty "ghost" none none
    |>.method "scale" [.number] .void scale
    |>.method "sum" [] .number (query fun item => .number (item.x + item.y))
    |>.method "isAnchor" [.object anchorTag] .bool (query fun _ => .bool true)
    |>.method "tag" [.text, .number, .bool] .text relabel
    |>.method "getAnchor" [] (.object anchorTag) (query fun item => .object item.anchorOf)

/-- More members for points, two of them under names that points have already. -/
def pointExtraClass : HostClass Item :=
  ({ tag := pointTag } : HostClass Item)
    |>.method "x" [] .number (query fun _ => .number (-1))
    |>.numberField "sum" (fun _ => -2) (fun item _ => item)
    |>.numberField "extra" (fun item => item.y * 10) (fun item v => item.setY (v / 10))

def newTicket : MethodBody Item := fun item _ cells =>
  let (handle, cells) := cells.newObject ticketTag .ticket
  ((.object handle, item), cells)

def ticketClass : HostClass Item :=
  ({ tag := ticketTag } : HostClass Item)
    |>.method "id" [] .number (query fun _ => .text (some "not a number"))
    |>.method "label" [] .text (query fun _ => .text none)
    |>.method "nothing" [] .text (query fun _ => .nil)
    |>.method "flag" [] .bool (query fun _ => .number 1)
    |>.method "self" [] (.object ticketTag) newTicket
    |>.method "other" [] (.object anchorTag) newTicket
    |>.method "loud" [] .void (query fun _ => .number 9)
    |>.method "takesVoid" [.void] .void (query fun _ => .nil)
    |>.method "echo" [.number] .number fun item args => pure (args.headD .nil, item)

/-- A member that declares a truth value and gives a number, for objects of any type. -/
def liar : Member Item :=
  ⟨none, .data .bool (some fun _ => .number 0.5) none⟩

def classesNamed : String → List (HostClass Item)
  | "Anchor" => [anchorClass]
  | "Point" => [pointClass]
  | "PointExtra" => [pointExtraClass]
  | "Ticket" => [ticketClass, ⟨ticketTag, [("liar", liar)]⟩]
  | _ => [{ tag := blankTag }]

end StackScript.Sample
