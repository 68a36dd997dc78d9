import Marginalia.Failure
import Marginalia.Text.Blank
import Marginalia.Text.Lower
import Marginalia.Text.Slice

/-!
# Languages and file names

A language tag stands for a file extension.  The extension of a file name is what follows its
last point; the stem is the name without it, where declaration and map files count as their source.
-/

namespace Marginalia.Language
set_option autoImplicit false

def tags : List (String × String) := [
  ("cjs", "js"), ("cts", "ts"), ("javascript", "js"), ("js", "js"), ("jsn", "json"),
  ("json", "json"), ("jsx", "jsx"), ("map", "json"), ("mjs", "js"), ("mts", "ts"), ("ts", "ts"),
  ("tsx", "tsx"), ("typescript", "ts")]

def extensionOfTag (tag : String) : Except Failure String :=
  match tags.lookup (Text.lower (String.ofList (Text.strip tag.toList))) with
  | some extension => .ok extension
  | none => .error (.unknownLanguage tag (tags.map (·.1)))

inductive Grammar where
  | javascript
  | json
  | typescript
  | tsx
deriving DecidableEq

def Grammar.name : Grammar → String
  | javascript => "javascript"
  | json => "json"
  | typescript => "typescript"
  | tsx => "tsx"

def grammar? (extension : String) : Option Grammar :=
  match Text.lower extension with
  | "js" => some .javascript
  | "jsx" => some .javascript
  | "json" => some .json
  | "ts" => some .typescript
  | "tsx" => some .tsx
  | _ => none

def sourceExtensions : List String := ["js", "jsx", "ts", "tsx"]

def isSource (extension : String) : Bool := sourceExtensions.contains extension

def extensionOf (filename : String) : String :=
  match Text.cutLast? '.' filename.toList with
  | some (_, tail) => String.ofList tail
  | none => filename

/-- A declaration file counts as its source, and a map file as what it maps. -/
def sourceName (cs : List Char) : List Char :=
  let declared := match Text.dropEnding? ".d.ts".toList cs with
    | some base => base ++ ".ts".toList
    | none => cs
  (Text.dropEnding? ".map".toList declared).getD declared

/-- The name without its extension, if it has one behind the last slash. -/
def stem (filename : String) : String :=
  let name := sourceName filename.toList
  match Text.cutLast? '.' name with
  | some (base, tail) =>
    if tail.isEmpty || tail.contains '/' then String.ofList name else String.ofList base
  | none => String.ofList name

end Marginalia.Language
