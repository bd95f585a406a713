import TypeqlAssist.Text.Bytes

/-!
# Files in a directory

A directory holds files by name, and files in directories of its own by several names. A path is a
row of names with slashes between them: one dot stays where it is, two dots go one directory up.
What lies outside the directory is not known, so no file is found there.
-/

namespace TypeqlAssist

/-- Why a path leads to no file. -/
inductive PathError where
  | notFound
  | notADirectory
  | isADirectory
  | nameTooLong
  deriving DecidableEq, Repr

/-- The message of an error. -/
def PathError.message : PathError → String
  | notFound => "No such file or directory (os error 2)"
  | notADirectory => "Not a directory (os error 20)"
  | isADirectory => "Is a directory (os error 21)"
  | nameTooLong => "File name too long (os error 36)"

/-- The parts of a text between slashes, one more than there are slashes. -/
def splitNames : Text → List Text
  | [] => [[]]
  | c :: cs =>
    if c == '/' then [] :: splitNames cs
    else
      match splitNames cs with
      | [] => [[c]]
      | name :: rest => (c :: name) :: rest

/-- A name that stays where it is: an empty one, or a dot. -/
def isIdle (name : Text) : Bool :=
  name.isEmpty || name == ['.']

/-- A file with the names that lead to it. -/
structure File where
  names : List Text
  content : String
  deriving Repr

/-- A directory by the files in it and below it. -/
structure Directory where
  files : List File
  deriving Repr

namespace Directory

/-- The directory of some paths with their contents. -/
def ofFiles (files : List (String × String)) : Directory :=
  ⟨files.map fun f => ⟨(splitNames f.1.toList).filter (!isIdle ·), f.2⟩⟩

/-- The content of the file that some names lead to. -/
def content? (d : Directory) (names : List Text) : Option String :=
  (d.files.find? (·.names == names)).map (·.content)

/-- Some names lead to a directory, one with a file below it. -/
def hasDirectory (d : Directory) (names : List Text) : Bool :=
  d.files.any fun f => names.isPrefixOf f.names && names.length < f.names.length

/-- Where a path has led so far. -/
inductive Place where
  | inside (names : List Text)
  | outside
  deriving DecidableEq, Repr

/-- The bytes that a name may have. -/
def nameLimit : Nat := 255

/-- The bytes that a path may have. -/
def pathLimit : Nat := 4095

/-- The content of the file that further names lead to from a place. -/
def follow (d : Directory) : Place → List Text → Except PathError String
  | _, [] => .error .isADirectory
  | place, name :: rest =>
    if isIdle name then d.follow place rest
    else if name == ['.', '.'] then
      match place with
      | .outside | .inside [] => d.follow .outside rest
      | .inside (n :: ns) => d.follow (.inside (n :: ns).dropLast) rest
    else if nameLimit < name.byteSize then .error .nameTooLong
    else
      match place with
      | .outside => .error .notFound
      | .inside ns =>
        let names := ns ++ [name]
        match d.content? names with
        | some content => if rest.isEmpty then .ok content else .error .notADirectory
        | none => if d.hasDirectory names then d.follow (.inside names) rest else .error .notFound

/-- The content of the file that a path leads to. A path that starts with a slash leads outside. -/
def read (d : Directory) (path : String) : Except PathError String :=
  let text : Text := path.toList
  if pathLimit < text.byteSize then .error .nameTooLong
  else if text.isEmpty then .error .notFound
  else d.follow (if text.head? == some '/' then .outside else .inside []) (splitNames text)

end Directory

end TypeqlAssist
