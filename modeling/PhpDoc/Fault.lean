import PhpDoc.Text.Basic

/-!
# Faults

Everything that can go wrong, by cause, and the message for each.
-/

namespace PhpDoc

/-- What a source lacks. -/
inductive DeclarationGap where
  | noNamespace
  | noClass
deriving DecidableEq

/-- Why a schema cannot answer. -/
inductive SchemaFault where
  /-- No schema file is configured for the connection. -/
  | noConnection (connection : Text)
  /-- The schema file is of a kind that cannot be read. -/
  | unsupported (path : Text)
  /-- The schema has no such table. -/
  | noTable (table : Text)
deriving DecidableEq

/-- A cause of failure. -/
inductive Fault where
  /-- A file is missing, is not a text, or cannot be written. -/
  | fileAccess
  /-- A text is not JSON of the expected shape. -/
  | badJson
  /-- The text to replace does not occur. -/
  | noSpliceMatch
  /-- The text to replace occurs more than once. -/
  | ambiguousSplice (count : Nat)
  /-- A class file lacks a declaration. -/
  | malformed (path : Text) (gap : DeclarationGap)
  /-- A schema cannot answer. -/
  | schema (fault : SchemaFault)
deriving DecidableEq

/-- What the source lacks, in words. -/
def DeclarationGap.message : DeclarationGap → Text
  | noNamespace => "no namespace declaration".toList
  | noClass => "no class declaration".toList

/-- Why the schema cannot answer, in words. -/
def SchemaFault.message : SchemaFault → Text
  | noConnection connection => "no schema configured for connection ".toList ++ connection
  | unsupported path => "unsupported schema source: ".toList ++ path
  | noTable table => "table ".toList ++ table ++ " not found in snapshot".toList

/-- The failure in words. -/
def Fault.message : Fault → Text
  | fileAccess => "I/O error".toList
  | badJson => "JSON error".toList
  | noSpliceMatch => "previous annotation text not found in source".toList
  | ambiguousSplice count =>
    "previous annotation text found ".toList ++ Text.ofNat count ++
      " times, refusing to guess".toList
  | malformed path gap =>
    "malformed declaration in ".toList ++ path ++ ": ".toList ++ gap.message
  | schema fault => "schema error: ".toList ++ fault.message

end PhpDoc
