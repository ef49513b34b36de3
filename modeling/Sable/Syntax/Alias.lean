import Sable.Syntax

/-!
# Aliases of imports

An import without an alias of its own goes by the last segment of its path, less the
extension. A backslash in a path counts as a slash.
-/

namespace Sable

/-- A path with a slash for every backslash. -/
def slashed (path : String) : String :=
  String.ofList (path.toList.map fun c => if c = '\\' then '/' else c)

/-- The last segment of a path; slashes behind it do not count. -/
def lastSegment (cs : List Char) : List Char :=
  ((cs.reverse.dropWhile (· == '/')).takeWhile (· != '/')).reverse

/-- A segment without what follows its last dot, unless nothing stands before that dot. -/
def withoutExtension (cs : List Char) : List Char :=
  match cs.reverse.dropWhile (· != '.') with
  | _ :: c :: stem => (c :: stem).reverse
  | _ => cs

/-- The alias of an import that states none. -/
def defaultAlias (path : String) : String :=
  String.ofList (withoutExtension (lastSegment (slashed path).toList))

/-- The alias that an import binds. -/
def Import.localAlias (i : Import) : String :=
  match i.alias? with
  | some name => name.name
  | none => defaultAlias i.path

end Sable
