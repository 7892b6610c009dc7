import UtilityCss.Site.FileTree
import UtilityCss.Toml.Table

namespace UtilityCss

/-- A library of globs. They are read one by one, and matched in sets. -/
structure GlobLibrary where
  Glob : Type
  GlobSet : Type
  /-- reads a glob, or says what is wrong with it -/
  read : String → Except String Glob
  /-- whether a glob by itself matches a path -/
  admits : Glob → String → Bool
  /-- makes a set, or says why globs make none -/
  build : List Glob → Except String GlobSet
  isMatch : GlobSet → String → Bool

/-- What a walk is told to leave out, besides what `.ignore` files list. -/
structure WalkRules where
  /-- names that begin with a point -/
  hidden : Bool
  /-- what `.gitignore` files list -/
  gitIgnore : Bool
  /-- what the user's list for all repositories holds -/
  gitGlobal : Bool
  /-- what the list in a repository's own directory holds -/
  gitExclude : Bool
  deriving DecidableEq, Repr

structure WalkEntry where
  path : String
  isFile : Bool
  deriving DecidableEq, Repr

/-- Where a walk begins: at a location, by a path that leads there. -/
structure WalkStart where
  path : String
  location : Location
  deriving DecidableEq, Repr

/-- A library that walks over directories. -/
structure Walker where
  /-- what a walk from a path comes upon, in order, with messages in the place of what cannot be read -/
  walk : FileTree → WalkRules → String → List (Except String WalkEntry)
  /-- whether a walk leaves out a location below its start, and all that lies there -/
  ignores : FileTree → WalkRules → WalkStart → (isDirectory : Bool) → Location → Bool
  /-- the list in the own directory of the repository that a directory holds -/
  exclusions? : FileTree → Location → Option ByteArray
  /-- where the user's list for all repositories is -/
  global? : Option Location

/-- The path of the standard input, which holds no files. -/
def Walker.standardInput : String := "-"

/-- A library for the language of config files. -/
structure TomlLibrary where
  /-- reads a document, or says what is wrong with it -/
  read : String → Except String Toml.Table
  /-- what is said of a text whose entries are not of the kinds asked for -/
  misfit : String → String

structure Libraries where
  globs : GlobLibrary
  walker : Walker
  toml : TomlLibrary

end UtilityCss
