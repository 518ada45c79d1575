/-! File names in paths, and the stem and extension of a file name. -/
namespace TypedForms.FileName

/-- The parts of a path between slashes; empty parts and single points lead nowhere. -/
def parts (path : String) : List (List Char) :=
  (path.toList.splitOn '/').filter fun part => !part.isEmpty && part != ['.']

/-- The last part of a path, unless it names the parent directory. -/
def last? (path : String) : Option (List Char) :=
  match (parts path).getLast? with
  | some part => if part = ['.', '.'] then none else some part
  | none => none

/-- Cuts a name at its last point.  A name without a point and a name whose only point comes first
have no extension. -/
def cut? (name : List Char) : Option (List Char × List Char) :=
  let extension := (name.reverse.takeWhile (· != '.')).reverse
  let stem := ((name.reverse.dropWhile (· != '.')).drop 1).reverse
  if stem.isEmpty then none else some (stem, extension)

/-- The stem and the extension of the file that a path names. -/
def split? (path : String) : Option (String × String) :=
  (last? path).bind fun name =>
    (cut? name).map fun pieces => (String.ofList pieces.1, String.ofList pieces.2)

/-- Gives the file of a name in a directory another extension, or its first one.  A name that leads
to no file stays as it is. -/
def setExtension (name extension : String) : String :=
  match last? name with
  | some chars => String.ofList ((cut? chars).elim chars Prod.fst) ++ "." ++ extension
  | none => name

/-- The name with another extension in place of its own.  Only the letters of the old extension are
taken off before the new one is set, and their point is left. -/
def withExtension (name extension : String) : String :=
  match (last? name).bind cut? with
  | some (stem, _) => setExtension (String.ofList (stem ++ ['.'])) extension
  | none => setExtension name extension

end TypedForms.FileName
