/-!
# Paths

A path is a text of names with slashes between them. The name `.` stands for
the directory itself and `..` for the one above it.

* `clean`: the shortest path that says the same, by its names alone.
* `join`: a name below a directory, cleaned.
* `ancestors`: the directories a path goes through, the nearest first.
-/

namespace Tessera.Files

/-- Drops what names cancel: `kept` holds the names so far, latest first. Above
the root there is nothing; above the start of a relative path there may be. -/
def cleanNames (rooted : Bool) (kept : List String) : List String → List String
  | [] => kept.reverse
  | name :: names =>
    if name = "" ∨ name = "." then cleanNames rooted kept names
    else if name = ".." then
      match kept with
      | [] => cleanNames rooted (if rooted then [] else [".."]) names
      | last :: before =>
        if last = ".." then cleanNames rooted (".." :: kept) names
        else cleanNames rooted before names
    else cleanNames rooted (name :: kept) names

/-- The shortest path that says the same. -/
def clean (path : String) : String :=
  let rooted := path.startsWith "/"
  let rest := "/".intercalate (cleanNames rooted [] (path.splitOn "/"))
  if rooted then "/" ++ rest else if rest = "" then "." else rest

/-- The path of a name below a directory; no directory is the one at hand. -/
def join (directory name : String) : String :=
  if directory = "" then clean name else clean (directory ++ "/" ++ name)

/-- The parts of a path, with their last slash, in front of each later name;
`before` is what was passed, latest first. -/
def parents (before : List Char) : List Char → List String
  | [] => []
  | c :: cs =>
    let rest := parents (c :: before) cs
    if c ≠ '/' ∧ before.head? = some '/' then String.ofList before.reverse :: rest else rest

/-- A path and the directories it goes through, the nearest first. -/
def ancestors (path : String) : List String := path :: (parents [] path.toList).reverse

end Tessera.Files
