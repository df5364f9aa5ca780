import Schemata.Content
import Schemata.Location

/-!
# Files in memory

A tree of files below one directory.  Directories are there because files are in them.
-/

namespace Schemata

/-- Files below one directory, by the parts of their location. -/
structure FileTree where
  /-- The files; no part of a key is empty, a dot or two dots. -/
  files : Table (List Text) Content := {}

namespace FileTree

def insert (tree : FileTree) (l : Location) (content : Content) : FileTree :=
  ⟨tree.files.insert l.climbed content⟩

/-- Whether a directory is there: some file is in it. -/
def isDirectory (tree : FileTree) (way : List Text) : Bool :=
  way.isEmpty || tree.files.keys.any fun parts => way.isPrefixOf parts && way != parts

/-- Follow the parts of a location from a directory.  A step upwards needs the directory that it
leaves, and the tree has nothing above it. -/
def follow (tree : FileTree) (way : List Text) : List Text → Option (List Text)
  | [] => some way
  | part :: rest =>
      if part == Location.upwards then
        if !way.isEmpty && tree.isDirectory way then tree.follow way.dropLast rest else none
      else tree.follow (way ++ [part]) rest

/-- The content of the file at a location below the directory. -/
def find? (tree : FileTree) (l : Location) : Option Content :=
  if l.root.isEmpty then (tree.follow [] l.parts).bind tree.files.get? else none

end FileTree

end Schemata
