/-!
Records in documents.

A document gives a record as a list of members, each a key and a value of the
document's own type. A field is read from the member with its key. There must be
at most one such member; whether there must be one is a matter of the field.
Members with other keys are of no concern.
-/

namespace Resampler.Record

variable {V β : Type}

def valuesOf (key : String) (members : List (String × V)) : List V :=
  (members.filter (·.1 == key)).map (·.2)

def required (key : String) (read : V → Option β) (members : List (String × V)) : Option β :=
  match valuesOf key members with
  | [v] => read v
  | _ => none

def optional (key : String) (read : V → Option β) (default : β) (members : List (String × V)) :
    Option β :=
  match valuesOf key members with
  | [] => some default
  | [v] => read v
  | _ => none

end Resampler.Record
