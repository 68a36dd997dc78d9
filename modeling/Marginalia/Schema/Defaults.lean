import Marginalia.Schema.Declaration

/-!
# Default options

The compiler options in effect when nothing sets them, and the schema of the options that a
directive may set.
-/

namespace Marginalia.Schema
set_option autoImplicit false

/-- The value of the option `jsx` that keeps the markup in the output. -/
def preserveMarkup : Int := 1

def defaultOptions : Entries := [
  ("strict", .bool true),
  ("module", .int 99),
  ("target", .int 99),
  ("allowJs", .bool true),
  ("skipDefaultLibCheck", .bool true),
  ("skipLibCheck", .bool true),
  ("moduleDetection", .int 3)]

def targets : List (String × Int) := [
  ("es3", 0), ("es5", 1), ("es6", 2), ("es2015", 2), ("es2016", 3), ("es2017", 4), ("es2018", 5),
  ("es2019", 6), ("es2020", 7), ("es2021", 8), ("es2022", 9), ("es2023", 10), ("esnext", 99)]

def modules : List (String × Int) := [
  ("none", 0), ("commonjs", 1), ("amd", 2), ("umd", 3), ("system", 4), ("es6", 5), ("es2015", 5),
  ("es2020", 6), ("es2022", 7), ("esnext", 99), ("node16", 100), ("nodenext", 199), ("preserve", 200)]

def markupModes : List (String × Int) := [
  ("preserve", 1), ("react", 2), ("react-native", 3), ("react-jsx", 4), ("react-jsxdev", 5)]

def moduleResolutions : List (String × Int) := [
  ("classic", 1), ("node", 2), ("node10", 2), ("node16", 3), ("nodenext", 99), ("bundler", 100)]

def moduleDetections : List (String × Int) := [
  ("auto", 1), ("legacy", 2), ("force", 3)]

def newLines : List (String × Int) := [
  ("crlf", 0), ("lf", 1)]

def libraries : List String := [
  "es5", "es6", "es2015", "es2016", "es2017", "es2018", "es2019", "es2020", "es2021", "es2022",
  "es2023", "esnext", "dom", "dom.iterable", "webworker", "scripthost"]

def booleanOptions : List String := [
  "allowJs", "allowSyntheticDefaultImports", "allowUnreachableCode", "allowUnusedLabels",
  "checkJs", "declaration", "declarationMap", "downlevelIteration", "emitDecoratorMetadata",
  "emitDeclarationOnly", "esModuleInterop", "exactOptionalPropertyTypes",
  "experimentalDecorators", "importHelpers", "inlineSourceMap", "isolatedModules", "noEmit",
  "noFallthroughCasesInSwitch", "noImplicitAny", "noImplicitOverride", "noImplicitReturns",
  "noImplicitThis", "noLib", "noUncheckedIndexedAccess", "noUnusedLocals", "noUnusedParameters",
  "preserveConstEnums", "removeComments", "resolveJsonModule", "skipDefaultLibCheck",
  "skipLibCheck", "sourceMap", "strict", "strictBindCallApply", "strictFunctionTypes",
  "strictNullChecks", "strictPropertyInitialization", "useDefineForClassFields",
  "verbatimModuleSyntax"]

def stringOptions : List String := [
  "baseUrl", "declarationDir", "jsxFactory", "jsxFragmentFactory", "jsxImportSource", "outDir",
  "outFile", "rootDir"]

def plain (kind : Kind) (name : String) : Declaration := .mk name (.plain kind) none

def enum (name : String) (values : List (String × Int)) : Declaration :=
  .mk name (.enum (values.map fun (spelling, n) => (spelling, .int n))) none

def listOf (element : Declaration) : Declaration := .mk element.name (.plain .list) (some element)

/-- A library's name stands for the file that declares it. -/
def libraryFile (library : String) : String := "lib." ++ library ++ ".d.ts"

def libraryElement : Declaration :=
  .mk "lib" (.enum (libraries.map fun library => (library, .str (libraryFile library)))) none

def defaultDeclarations : List Declaration :=
  booleanOptions.map (plain .boolean) ++ stringOptions.map (plain .string) ++
    [ plain .number "maxNodeModuleJsDepth",
      enum "target" targets,
      enum "module" modules,
      enum "jsx" markupModes,
      enum "moduleResolution" moduleResolutions,
      enum "moduleDetection" moduleDetections,
      enum "newLine" newLines,
      listOf libraryElement,
      listOf (plain .string "types"),
      listOf (plain .string "rootDirs") ]

end Marginalia.Schema
