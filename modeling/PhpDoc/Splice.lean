import PhpDoc.Fault
import PhpDoc.Text.Word

/-!
# Splicing

A splice replaces the one place of a source where a given text stands.  The place must start a line
and must not run into a longer name, so `class User` does not stand in `class UserController`.  When
the text stands nowhere, or at several places, nothing is replaced.
-/

namespace PhpDoc

/-- Whether no name runs on at the start of the text. -/
def endsName (rest : Text) : Bool :=
  !rest.head?.any fun c => isAlphanumeric c || c == '_'

/-- The offsets at which `needle` starts a line and ends a name, among its occurrences from left to
right and without overlap.  `offset` characters precede the text; `fresh` says whether a line starts
there, and `skip` how many characters belong to the last occurrence. -/
def anchoredFrom (needle : Text) : (offset : Nat) → (fresh : Bool) → (skip : Nat) → Text → List Nat
  | _, _, _, [] => []
  | offset, _, skip + 1, c :: text => anchoredFrom needle (offset + 1) (c == '\n') skip text
  | offset, fresh, 0, c :: text =>
    match Text.after? needle (c :: text) with
    | some rest =>
      let later := anchoredFrom needle (offset + 1) (c == '\n') (needle.length - 1) text
      if fresh && endsName rest then offset :: later else later
    | none => anchoredFrom needle (offset + 1) (c == '\n') 0 text

/-- The offsets at which a splice may replace `needle`. -/
def anchoredOccurrences (source needle : Text) : List Nat :=
  if needle.isEmpty then [] else anchoredFrom needle 0 true 0 source

/-- What a splice gives. -/
structure Patch where
  /-- Whether the text to replace was found. -/
  matched : Bool
  /-- The source after the replacement, unchanged when nothing was found. -/
  text : Text
deriving DecidableEq

/-- The source with `length` characters from `offset` on replaced. -/
def replaceAt (source : Text) (offset length : Nat) (replacement : Text) : Text :=
  source.take offset ++ replacement ++ source.drop (offset + length)

/-- Replaces the only place of `previous`.  Several places are a fault. -/
def splice (source previous replacement : Text) : Except Fault Patch :=
  match anchoredOccurrences source previous with
  | [] => .ok ⟨false, source⟩
  | [offset] => .ok ⟨true, replaceAt source offset previous.length replacement⟩
  | offsets => .error (.ambiguousSplice offsets.length)

/-- Replaces the only place of `previous`.  Several places, or none, are a fault. -/
def spliceRequired (source previous replacement : Text) : Except Fault Text := do
  let patch ← splice source previous replacement
  if patch.matched then .ok patch.text else .error .noSpliceMatch

end PhpDoc
