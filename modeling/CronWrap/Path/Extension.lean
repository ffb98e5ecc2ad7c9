import CronWrap.Path.Basic

/-! File name extensions, and those that source files have. -/
namespace CronWrap

namespace Path

/-- The name from its last dot on; a dot at either end of the name starts no suffix. -/
def suffixOf (name : List Char) : List Char :=
  match name.reverse.span (· ≠ '.') with
  | ([], _) => []
  | (_, []) => []
  | (_, [_]) => []
  | (tail, dot :: _) => dot :: tail.reverse

def suffix (p : Path) : String := String.ofList (suffixOf p.name.toList)

/-- ASCII capitals made small, which is all that telling extensions apart needs. -/
def lowerSuffix (p : Path) : String := String.ofList (p.suffix.toList.map Char.toLower)

end Path

/-- The extensions of source files, in the order in which a name is tried against them. -/
def sourceExtensions : List String :=
  [".ts", ".tsx", ".mts", ".cts", ".js", ".jsx", ".mjs", ".cjs"]

/-- A file name without its source extension. -/
def stripSourceExtension (name : String) : String :=
  let stem := sourceExtensions.findSome? fun e => e.toList.isSuffixOf? name.toList
  (stem.map String.ofList).getD name

example : stripSourceExtension "page.d.tsx" = "page.d" := by decide

example : stripSourceExtension "data.json" = "data.json" := by decide

example : (Path.parse "a.b.ts").suffix = ".ts" := by decide

example : (Path.parse ".ts").suffix = "" ∧ (Path.parse "a.").suffix = "" := by decide

end CronWrap
