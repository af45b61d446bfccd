import PhpDoc.Block.Layout
import PhpDoc.Block.Property

/-!
# Class blocks

The block of a class states its properties, its name and namespace, and the mixins that its kind
requires, beside what was written by hand.
-/

namespace PhpDoc

/-- A mixin that a class block must carry. -/
structure MixinRequirement where
  target : Text
  /-- Whether a line of the block already names the target. -/
  present : Bool
deriving DecidableEq

/-- A mixin target without surrounding blanks and leading backslashes. -/
def normalizeTarget (target : Text) : Text :=
  target.trim.dropWhile (· == '\\')

/-- The target that a `@mixin` line names. -/
def mixinTarget? (line : Text) : Option Text :=
  (Text.cut? "@mixin".toList line).map fun (_, rest) => normalizeTarget rest

/-- Which of the targets the existing lines name. -/
def MixinRequirement.resolve (targets existing : List Text) : List MixinRequirement :=
  targets.map fun target =>
    ⟨target, (existing.filterMap mixinTarget?).contains (normalizeTarget target)⟩

/-- The lines without repetitions, each at its first place. -/
def distinctLines (lines : List Text) : List Text :=
  lines.foldl (fun kept line => if kept.contains line then kept else kept ++ [line]) []

/-- What a class block is made from. -/
structure ClassBlock where
  /-- The name of the class. -/
  name : Text
  /-- The namespace it stands in. -/
  home : Text
  /-- The doc comment it has. -/
  existing : Option Text
  /-- Its properties, as far as they could be found. -/
  discovery : Discovery
  /-- The mixins it must carry. -/
  mixins : List Text
  /-- The description of a block without free text; none when empty. -/
  placeholder : Text

namespace ClassBlock

/-- A name in braces. -/
def braced (name : Text) : Text :=
  '{' :: name ++ ['}']

/-- The groups with the merged properties. -/
def withProperties (b : ClassBlock) (g : TagGroups) : TagGroups :=
  g.set "@property".toList (reconcile (g.lines "@property".toList) b.discovery)

/-- The groups with the placeholder, where it is wanted. -/
def withDescription (b : ClassBlock) (g : TagGroups) : TagGroups :=
  if g.has commentKey || b.placeholder.isEmpty then g
  else g.set commentKey [" * ".toList ++ b.placeholder]

/-- The first line of a group, or the line that carries the name in braces. -/
def identityLine (g : TagGroups) (tag name : Text) : Text :=
  (g.lines tag).head?.getD (tagLine tag (braced name))

/-- The groups with one aligned line for the class and one for its namespace. -/
def withIdentity (b : ClassBlock) (g : TagGroups) : TagGroups :=
  let pair :=
    align [identityLine g "@class".toList b.name, identityLine g "@namespace".toList b.home] none
  (g.set "@class".toList (pair.take 1)).set "@namespace".toList (pair.drop 1)

/-- The groups with every required mixin. -/
def withMixins (b : ClassBlock) (g : TagGroups) : TagGroups :=
  let kept := distinctLines (g.lines "@mixin".toList)
  let missing := (MixinRequirement.resolve b.mixins kept).filter fun r => !r.present
  g.set "@mixin".toList (kept ++ missing.map fun r => tagLine "@mixin".toList r.target)

/-- The groups of the finished block. -/
def groups (b : ClassBlock) : TagGroups :=
  b.withMixins (b.withIdentity (b.withDescription (b.withProperties
    (.ofBlock (b.existing.getD [])))))

/-- The finished block. -/
def render (b : ClassBlock) : Text :=
  b.groups.assemble classOrder

end ClassBlock

end PhpDoc
