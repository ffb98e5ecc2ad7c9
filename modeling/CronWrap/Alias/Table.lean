import CronWrap.Path.Specifier
import CronWrap.Text.Wildcard

/-! Path aliases: specifier patterns with the places that they stand for, read in both directions.
-/
namespace CronWrap

/-- Patterns in the order in which they are tried, each with its targets; targets start at `base`.
-/
structure AliasTable where
  base : Path
  entries : List (String × List String)
  deriving DecidableEq, Repr

/-- Prefixes that mark an alias even where no pattern is configured. -/
def conventionalPrefixes : List String := ["@/", "~/", "#/", "src/"]

def matchesPattern (pattern specifier : String) : Bool :=
  (Text.captureWildcard pattern.toList specifier.toList).isSome

namespace AliasTable

/-- The place that an entry gives a specifier: the first target, its wildcard filled with what the
pattern's wildcard stands for. -/
def resolveEntry (base : Path) (specifier : String) : String × List String → Option Path
  | (_, []) => none
  | (pattern, target :: _) =>
    (Text.captureWildcard pattern.toList specifier.toList).map fun run =>
      (base.join (.ofChars (Text.fillWildcard target.toList run))).normalize

/-- The path behind an alias: the first matching entry that has a target decides. -/
def resolve (table : AliasTable) (specifier : String) : Option Path :=
  table.entries.findSome? (resolveEntry table.base specifier)

/-- What a target covers of `path`, both written out: nothing more for the base itself, and the rest
of the text for what lies below it. -/
def remainder? (base path : List Char) : Option (List Char) :=
  if path = base then some []
  else ((base.reverse.dropWhile (· = '/')).reverse ++ ['/']).isPrefixOf? path

/-- The specifier by which an entry names a path. -/
def nameEntry (base : Path) (path : List Char) : String × List String → Option String
  | (_, []) => none
  | (pattern, target :: _) =>
    let (head, tail?) := Text.splitWildcard target.toList
    let covered := (base.join (.ofChars head)).normalize.posix.toList
    match tail? with
    | none => if path = covered then some pattern else none
    | some tail => do
      let rest ← remainder? covered path
      let run ← tail.isSuffixOf? rest
      return String.ofList (Text.fillWildcard pattern.toList run)

/-- The alias of an absolute path: the first entry that covers it names it. -/
def nameOf (table : AliasTable) (path : Path) : Option String :=
  table.entries.findSome? (nameEntry table.base path.normalize.posix.toList)

/-- Whether a specifier is an alias rather than a relative path or a package. -/
def isAlias (table : AliasTable) (specifier : String) : Bool :=
  !Path.isRelativeSpecifier specifier &&
    (table.entries.any (fun e => matchesPattern e.1 specifier) ||
      conventionalPrefixes.any fun p => p.toList.isPrefixOf specifier.toList)

example : (AliasTable.mk (.parse "/app") [("@/*", ["./src/*"])]).resolve "@/lib/jobs" =
    some (.parse "/app/src/lib/jobs") := by decide

example : (AliasTable.mk (.parse "/app") [("@/*", ["./src/*"])]).nameOf
    (.parse "/app/src/lib/../jobs") = some "@/jobs" := by decide

end AliasTable

end CronWrap
