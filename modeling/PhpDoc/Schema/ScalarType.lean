import PhpDoc.Text.Basic

/-!
# Scalar types

A column type of a database is coarse for a doc block: only four types are told apart, by the words
that the native type contains.
-/

namespace PhpDoc

/-- The types that columns have in doc blocks. -/
inductive ScalarType where
  | int
  | float
  | bool
  | string
deriving DecidableEq

namespace ScalarType

/-- The type as it is written. -/
def name : ScalarType → Text
  | int => "int".toList
  | float => "float".toList
  | bool => "bool".toList
  | string => "string".toList

/-- Words in native types and the types they tell; the first rule that applies counts. -/
def rules : List (List Text × ScalarType) :=
  [(["int".toList], int),
    (["decimal".toList, "double".toList, "float".toList, "real".toList, "numeric".toList], float),
    (["bool".toList], bool),
    (["char".toList, "text".toList, "timestamp".toList, "date".toList, "time".toList,
      "json".toList, "enum".toList], string)]

/-- The type of a column.  Case does not matter; the words hold ASCII letters only, and no other
letter has one of theirs as its whole lower case, so ASCII letters are all that is folded. -/
def ofNative (native : Text) : ScalarType :=
  let folded := native.map Char.toLower
  ((rules.find? fun (words, _) => words.any fun word => Text.occursIn word folded).map
    Prod.snd).getD string

end ScalarType

end PhpDoc
