import OmniJsonDb.Lib.Glob
import OmniJsonDb.Model.Query

/-!
# Globs in paths

`_compile_path_glob`: a glob is turned into a regular expression by two replacements. Of `re` only
what the result is made of when no letter of the glob means something to `re` is modelled: letters,
`.`, a `*` behind one of them, and the end of the text. The rest of `re` is a parameter.

* `pathSub`: `PATH_RE_sub('.*', ..)`.
* `compilePathGlob`: the match of a key.
-/

namespace OmniJsonDb

open Glob

/-- What the host's `re` is. -/
structure ReEnv where
  /-- `c.isalnum()`. -/
  isalnum : Char → Bool
  /-- `re.compile(..).match(..)` of an expression with other syntax; nothing where it does not compile. -/
  other : List Char → Option (List Char → Bool)
  dot_not_alnum : isalnum '.' = false
  mark_not_alnum : isalnum '?' = false

/-- What means something to `re`, besides `.`, `*` and the end. -/
def RE_SYNTAX : List Char := ['\\', '^', '$', '+', '?', '{', '[', '|', '(', ')']

namespace ReEnv

variable (re : ReEnv)

/-- `\w`. -/
def isWord (c : Char) : Bool := re.isalnum c || c = '_'

/-- A run of stars between two letters, or the start and the end: `(?<!\W)\*+|\*+(?!\W|$)` replaced by `.*`. -/
def subRun (prev : Option Char) (n : ℕ) (next : Option Char) : List Char :=
  if n = 0 then []
  else if prev.all re.isWord ∨ next.any re.isWord then ['.', '*']
  else List.replicate n '*'

/-- `PATH_RE_sub('.*', ..)` behind `n` stars that come after `prev`. -/
def pathSub (prev : Option Char) (n : ℕ) : List Char → List Char
  | [] => re.subRun prev n none
  | c :: s => if c = '*' then pathSub prev (n + 1) s else re.subRun prev n (some c) ++ c :: pathSub (some c) 0 s

end ReEnv

/-- A letter, or `.`: anything but a newline. -/
def reLetter (c : Char) : Glob.Item Char := ⟨if c = '.' then fun d => d ≠ '\n' else fun d => d = c, false⟩

/-- The items of an expression; nothing where there is nothing to repeat, or what is repeated is. -/
def reItems : List Char → Option (List (Glob.Item Char))
  | [] => some []
  | [c] => if c = '*' then none else some [reLetter c]
  | c :: d :: s =>
    if c = '*' then none
    else if d = '*' then (reItems s).map fun is => { reLetter c with star := true } :: is
    else (reItems (d :: s)).map fun is => reLetter c :: is

/-- `$`: the end, or a newline in front of it. -/
def reEnd (s : List Char) : Bool := s = [] ∨ s = ['\n']

namespace ReEnv

variable (re : ReEnv)

/-- `re.compile('^..$').match`. -/
def matchWhole (body : List Char) : Option (List Char → Bool) :=
  if body.all fun c => c ∉ RE_SYNTAX then (reItems body).map fun is => accept reEnd is
  else re.other ('^' :: body ++ ['$'])

/-- `_compile_path_glob(..).match`. -/
def compilePathGlob (pattern : List Char) : Option (List Char → Bool) :=
  re.matchWhole (re.pathSub none 0 (pattern.map fun c => if c = '?' then '.' else c))

/-- Queries whose globs are these. -/
def queryEnv (e : QueryEnv) : QueryEnv := { e with glob := re.compilePathGlob }

end ReEnv

end OmniJsonDb
