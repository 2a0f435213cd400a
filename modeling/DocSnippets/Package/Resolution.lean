import DocSnippets.Package.ExportTarget
import DocSnippets.Text.Find

/-!
# Resolution of entry points

A request for the package itself or for one of its subpaths is answered by the declared exports, or
by the main file where none are declared. In a map of conditions the first one that is present and
not null decides; in a map of subpaths an equal key decides, and otherwise the pattern with the
longest text before its star. Nothing else is tried afterwards.
-/

namespace DocSnippets

/-- Why a request has no answer: the package declares no entry point at all, or none for it. -/
inductive ResolutionError where
  | missingEntry
  | unresolved (request : String)
deriving DecidableEq, Repr

def ResolutionError.message : ResolutionError → String
  | .missingEntry => "Failed to find a valid main or exports entry in package.json file"
  | .unresolved request => "Unable to resolve export for path \"" ++ request ++ "\""

namespace Resolution

/-- The conditions that count, in their priority. -/
def conditions : List String := ["node-addons", "node", "import", "require", "default"]

def rootRequest : List Char := ['.']

/-- The part of a request that stands for the star of a pattern, which has exactly one star and
stands for at least one character. -/
def capture? (pattern request : List Char) : Option (List Char) :=
  match Text.cut? ['*'] pattern with
  | none => none
  | some (before, after) =>
    if after.contains '*' then none
    else if request.length ≤ before.length + after.length then none
    else if before.isPrefixOf request && after.isSuffixOf request then
      some ((request.drop before.length).take (request.length - before.length - after.length))
    else none

def starPosition (pattern : List Char) : Nat := (pattern.takeWhile (· != '*')).length

def condition? (entries : List (String × ExportTarget)) : Option ExportTarget :=
  conditions.findSome? fun c => (entries.lookup c).filter (!·.isNull)

def substitute (captured : Option (List Char)) (path : List Char) : List Char :=
  match captured with
  | none => path
  | some segment => Text.replaceAll ['*'] segment path

theorem sizeOf_condition? {entries : List (String × ExportTarget)} {target : ExportTarget}
    (h : condition? entries = some target) : sizeOf target < sizeOf entries := by
  obtain ⟨c, -, hc⟩ := List.exists_of_findSome?_eq_some h
  have hl := (Option.filter_eq_some_iff.mp hc).1
  induction entries with
  | nil => simp at hl
  | cons e entries ih =>
    obtain ⟨key, value⟩ := e
    rw [List.lookup_cons] at hl
    split at hl
    · cases hl
      simp only [List.cons.sizeOf_spec, Prod.mk.sizeOf_spec]
      omega
    · have hsmall : sizeOf target < sizeOf entries := by
        clear h hc ih
        induction entries with
        | nil => simp at hl
        | cons e entries ih =>
          obtain ⟨key, value⟩ := e
          rw [List.lookup_cons] at hl
          split at hl
          · cases hl
            simp only [List.cons.sizeOf_spec, Prod.mk.sizeOf_spec]
            omega
          · have := ih hl
            simp only [List.cons.sizeOf_spec]
            omega
      simp only [List.cons.sizeOf_spec]
      omega

/-- The path under a chosen subpath entry: conditions may follow, further subpaths may not. -/
def entryPath? (captured : Option (List Char)) (target : ExportTarget) : Option (List Char) :=
  match target with
  | .path text => some (substitute captured text.toList)
  | .null => none
  | .map entries =>
    if ExportTarget.hasSubpaths entries then none
    else
      match _h : condition? entries with
      | none => none
      | some next => entryPath? captured next
termination_by sizeOf target
decreasing_by
  have := sizeOf_condition? _h
  simp only [ExportTarget.map.sizeOf_spec]
  omega

structure Candidate where
  position : Nat
  captured : List Char
  target : ExportTarget

/-- The best of two candidates: the one with more text before the star, the earlier one on a tie. -/
def better (best : Option Candidate) (next : Candidate) : Option Candidate :=
  match best with
  | some b => if b.position < next.position then some next else some b
  | none => some next

/-- The candidates among entries, in the order of declaration. -/
def candidates (request : List Char) (entries : List (String × ExportTarget)) : List Candidate :=
  entries.filterMap fun e =>
    (capture? e.1.toList request).map fun captured =>
      ⟨starPosition e.1.toList, captured, e.2⟩

def subpathPath? (request : List Char) (entries : List (String × ExportTarget)) :
    Option (List Char) :=
  match entries.lookup (String.ofList request) with
  | some target => entryPath? none target
  | none =>
    match (candidates request entries).foldl better none with
    | some best => entryPath? (some best.captured) best.target
    | none => none

def targetPath? (request : List Char) (target : ExportTarget) : Option (List Char) :=
  match target with
  | .path text => if request = rootRequest then some text.toList else none
  | .null => none
  | .map entries =>
    if ExportTarget.hasSubpaths entries then subpathPath? request entries
    else
      match _h : condition? entries with
      | none => none
      | some next => targetPath? request next
termination_by sizeOf target
decreasing_by
  have := sizeOf_condition? _h
  simp only [ExportTarget.map.sizeOf_spec]
  omega

/-- The extensions that a resolved path loses; at most one of them is removed. -/
def sourceExtensions : List (List Char) :=
  [".d.ts".toList, ".tsx".toList, ".ts".toList, ".jsx".toList, ".js".toList]

/-- A text without an ending, if it has it. -/
def dropEnding? (ending text : List Char) : Option (List Char) :=
  if ending.isSuffixOf text then some (text.take (text.length - ending.length)) else none

/-- A path without a leading `./` and without its source extension. -/
def normalize (path : List Char) : List Char :=
  let path := (['.', '/'].isPrefixOf? path).getD path
  (sourceExtensions.findSome? fun ending => dropEnding? ending path).getD path

/-- The subpath that is requested, without leading slashes; empty for the package itself. -/
def requested (subpath : Option (List Char)) : List Char :=
  (subpath.getD []).dropWhile (· = '/')

def requestKey (subpath : List Char) : List Char :=
  if subpath = [] then rootRequest else '.' :: '/' :: subpath

def requestName (package subpath : List Char) : List Char :=
  if subpath = [] then package else package ++ '/' :: subpath

end Resolution

/-- What a package serves: its name, its main file and its declared exports. At least one of the
last two is there in a package with entry points. -/
structure EntryPoints where
  package : String
  main : Option String
  exports : Option ExportTarget

namespace EntryPoints

def check (e : EntryPoints) : Except ResolutionError EntryPoints :=
  if e.main.isNone && e.exports.isNone then .error .missingEntry else .ok e

/-- The declared path for a request, as it is declared. -/
def path? (e : EntryPoints) (request : List Char) : Option (List Char) :=
  match e.exports with
  | none => if request = Resolution.rootRequest then e.main.map String.toList else none
  | some target => Resolution.targetPath? request target

/-- The path that serves a subpath of the package, relative to its root, without a leading `./` and
without a source extension. -/
def resolve (e : EntryPoints) (subpath : Option (List Char)) :
    Except ResolutionError (List Char) :=
  let subpath := Resolution.requested subpath
  match e.path? (Resolution.requestKey subpath) with
  | some path => .ok (Resolution.normalize path)
  | none =>
    .error (.unresolved (String.ofList (Resolution.requestName e.package.toList subpath)))

end EntryPoints

end DocSnippets
