import PhpDoc.Block.TagGroups

/-!
# Layout of a block

A block is written group by group in a fixed order, between its delimiters.  Groups that the order
does not name follow in order of first appearance.  Separators stand only between other lines: none
touches a delimiter or another separator.
-/

namespace PhpDoc

/-- The keys in the order in which their groups are written, each with the flag that asks for a
separator after a group that has lines. -/
abbrev GroupOrder := List (Text × Bool)

/-- Class blocks: description, properties, the class and namespace pair, mixins. -/
def classOrder : GroupOrder :=
  [(commentKey, true), ("@property".toList, true), ("@class".toList, false),
    ("@namespace".toList, true), ("@mixin".toList, false)]

/-- Method blocks: parameters, then the returned type. -/
def methodOrder : GroupOrder :=
  [("@param".toList, true), ("@return".toList, false)]

namespace TagGroups

/-- The keys that the order does not name. -/
def unordered (g : TagGroups) (order : GroupOrder) : List Text :=
  g.keys.filter fun key => !(order.map Prod.fst).contains key

/-- The lines of one ordered group, with its separator when it asks for one. -/
def orderedLines (g : TagGroups) (key : Text) (separated : Bool) : List Text :=
  if (g.lines key).isEmpty then []
  else if separated then g.lines key ++ [separatorLine] else g.lines key

/-- The lines of all groups that the order does not name, after a separator. -/
def unorderedLines (g : TagGroups) (order : GroupOrder) : List Text :=
  if (g.unordered order).isEmpty then []
  else separatorLine :: (g.unordered order).flatMap g.lines

/-- All lines in the order in which they are written, with separators that may be redundant. -/
def bodyLines (g : TagGroups) (order : GroupOrder) : List Text :=
  (order.flatMap fun (key, separated) => g.orderedLines key separated) ++ g.unorderedLines order

end TagGroups

/-- The lines with separators only between other lines: `started` says whether another line has been
written, `due` whether a separator has been asked for since. -/
def spaceOut : (started due : Bool) → List Text → List Text
  | _, _, [] => []
  | started, due, line :: rest =>
    if line = separatorLine then spaceOut started started rest
    else if due then separatorLine :: line :: spaceOut true false rest
    else line :: spaceOut true false rest

/-- The block that holds the groups in the given order. -/
def TagGroups.assemble (g : TagGroups) (order : GroupOrder) : Text :=
  Text.joinLines (openingLine :: spaceOut false false (g.bodyLines order) ++ [closingLine])

end PhpDoc
