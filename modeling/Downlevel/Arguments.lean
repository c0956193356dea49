import Downlevel.Path

/-!
# Command-line arguments

What a call can ask for. How the words of a call are read is left to a reader.
-/

namespace Downlevel

def aboutText : String :=
  "cxx-backport - Rewrite C++17 fold expressions and message-less static_assert for older " ++
    "compilers"

def settingsHelp : String :=
  "CONFIGURATION FILE (.cxx-backport.toml):
  Searched from the first path upward; command-line flags win.

  [cxx-backport]
  max_passes = 16            # Give up on a file after N changing passes
  allow_parse_errors = false # Rewrite files the parser had to recover from

  # Path filters
  exclude_folders = [\"build\", \"third_party\"]
  include_folders = [\"vendor\"]  # Force-include these
  extensions = [\"cpp\", \"hpp\"]   # Replaces the default extension list

EXIT STATUS:
  0  success
  1  --check found files to rewrite, or a file failed
  2  invalid arguments
"

inductive Flag where
  | apply | check | stdout | json | verbose | quiet | allowErrors
  deriving DecidableEq, Repr

structure Arguments where
  paths : List Path := []
  root : Option Path := none
  flags : List Flag := []
  maxPasses : Option Nat := none
  exclude : List String := []
  forced : List String := []
  extensions : List String := []
  deriving DecidableEq, Repr

inductive ArgumentStop where
  | help (text : String)
  | version (text : String)
  | unknownArgument | tooManyValues | invalidValue | valueValidation | conflict
  deriving DecidableEq, Repr

def ArgumentStop.text? : ArgumentStop → Option String
  | .help text | .version text => some text
  | _ => none

abbrev ArgumentReader := List String → Except ArgumentStop Arguments

end Downlevel
