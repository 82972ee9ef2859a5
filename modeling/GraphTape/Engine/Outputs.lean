/-!
# Outputs

The vectors of output nodes under the names of the nodes, in the order of the names. Of several
nodes with one name the last one inserted remains.
-/

namespace GraphTape

/-- Vectors by name, in ascending order of the names. -/
structure Outputs (α : Type) where
  entries : List (String × List α) := []
  deriving Inhabited

namespace Outputs

variable {α : Type}

/-- Inserts into an ordered list, replacing an entry of the same name. -/
def insertEntry (name : String) (values : List α) :
    List (String × List α) → List (String × List α)
  | [] => [(name, values)]
  | (other, old) :: rest =>
    if name = other then (name, values) :: rest
    else if name < other then (name, values) :: (other, old) :: rest
    else (other, old) :: insertEntry name values rest

/-- Puts a vector under a name. -/
def insert (o : Outputs α) (name : String) (values : List α) : Outputs α :=
  ⟨insertEntry name values o.entries⟩

/-- The vector under a name. -/
def get? (o : Outputs α) (name : String) : Option (List α) :=
  (o.entries.find? fun entry => entry.1 == name).map Prod.snd

/-- The only vector, if there is exactly one. -/
def sole? (o : Outputs α) : Option (List α) :=
  match o.entries with
  | [(_, values)] => some values
  | _ => none

end Outputs

end GraphTape
