import RevisionGraph.Text.Blank
import RevisionGraph.Text.Search

/-!
# The parts of an entity URI

A URI is `/package/entity` or `scheme://forge!product$version/package/entity`, where the scheme, the
forge, the version, the entity and, behind an authority, the whole path may be left out.
`Parts.read` takes a text apart and `Parts.render` puts it together; `Parts.WellFormed` says which
parts a text can have.
-/

namespace RevisionGraph

namespace Uri

/-- Why a text is not a URI, or not the URI that is asked for. -/
inductive Flaw where
  | empty
  | blank
  | relative
  | scheme
  | missingAuthority
  | emptyAuthority
  | emptyForge
  | emptyVersion
  | emptyProduct
  | emptyPackage
  | emptyEntity
  | reservedCoordinates
  | noPackage
  | noClass
  deriving DecidableEq, Repr

def Flaw.message : Flaw → String
  | .empty => "empty URI"
  | .blank => "contains whitespace or control characters"
  | .relative => "path must start with '/'"
  | .scheme => "invalid scheme"
  | .missingAuthority => "scheme must be followed by '//'"
  | .emptyAuthority => "empty authority"
  | .emptyForge => "empty forge before '!'"
  | .emptyVersion => "empty version after '$'"
  | .emptyProduct => "empty product"
  | .emptyPackage => "empty namespace"
  | .emptyEntity => "empty entity"
  | .reservedCoordinates => "coordinates contain reserved characters ('!', '$' or '/')"
  | .noPackage => "method URI has no namespace"
  | .noClass => "method URI has no class name"

/-- `forge!product$version` -/
structure Authority where
  forge : Option (List Char)
  product : List Char
  version : Option (List Char)
  deriving DecidableEq, Repr

/-- `/package/entity` -/
structure Path where
  package : List Char
  entity : Option (List Char)
  deriving DecidableEq, Repr

inductive Parts where
  | local (path : Path)
  | located (scheme : Option (List Char)) (authority : Authority) (path : Option Path)
  deriving DecidableEq, Repr

def isSchemeChar (c : Char) : Bool := c.isAlphanum || c = '+' || c = '-' || c = '.'

def isScheme : List Char → Bool
  | [] => false
  | first :: rest => first.isAlpha && rest.all isSchemeChar

namespace Authority

def read (text : List Char) : Except Flaw Authority :=
  if text.isEmpty then .error .emptyAuthority
  else
    match cut '!' text with
    | (forge, some rest) =>
      if forge.isEmpty then .error .emptyForge else readProduct (some forge) rest
    | (_, none) => readProduct none text
where
  readProduct (forge : Option (List Char)) (text : List Char) : Except Flaw Authority :=
    match cut '$' text with
    | (product, some version) =>
      if version.isEmpty then .error .emptyVersion
      else if product.isEmpty then .error .emptyProduct
      else .ok ⟨forge, product, some version⟩
    | (product, none) =>
      if product.isEmpty then .error .emptyProduct else .ok ⟨forge, product, none⟩

def render (a : Authority) : List Char :=
  (match a.forge with
    | some forge => forge ++ ['!']
    | none => []) ++
  a.product ++
  (match a.version with
    | some version => '$' :: version
    | none => [])

structure WellFormed (a : Authority) : Prop where
  forge : ∀ forge, a.forge = some forge → forge ≠ [] ∧ '!' ∉ forge ∧ '/' ∉ forge
  product : a.product ≠ [] ∧ '$' ∉ a.product ∧ '/' ∉ a.product
  version : ∀ version, a.version = some version → version ≠ [] ∧ '/' ∉ version
  forgeless : a.forge = none → '!' ∉ a.product ∧ ∀ version, a.version = some version → '!' ∉ version

end Authority

namespace Path

/-- Reads what follows the first slash. -/
def read (text : List Char) : Except Flaw Path :=
  match cut '/' text with
  | (package, none) => if package.isEmpty then .error .emptyPackage else .ok ⟨package, none⟩
  | (package, some entity) =>
    if package.isEmpty then .error .emptyPackage
    else if entity.isEmpty then .error .emptyEntity
    else .ok ⟨package, some entity⟩

def render (p : Path) : List Char :=
  '/' :: p.package ++
  (match p.entity with
    | some entity => '/' :: entity
    | none => [])

structure WellFormed (p : Path) : Prop where
  package : p.package ≠ [] ∧ '/' ∉ p.package
  entity : ∀ entity, p.entity = some entity → entity ≠ []

end Path

namespace Parts

/-- Reads what follows `//`. -/
def readLocated (scheme : Option (List Char)) (text : List Char) : Except Flaw Parts := do
  let authority ← Authority.read (text.takeWhile (· ≠ '/'))
  match text.dropWhile (· ≠ '/') with
  | [] => return .located scheme authority none
  | _ :: path => return .located scheme authority (some (← Path.read path))

def read (text : List Char) : Except Flaw Parts :=
  if text.isEmpty then .error .empty
  else if text.any fun c => isBlank c || isControl c then .error .blank
  else
    match text with
    | '/' :: '/' :: rest => readLocated none rest
    | '/' :: rest => (Path.read rest).map .local
    | _ =>
      match cut ':' text with
      | (_, none) => .error .relative
      | (scheme, some rest) =>
        if !isScheme scheme then .error .scheme
        else
          match rest with
          | '/' :: '/' :: rest => readLocated (some scheme) rest
          | _ => .error .missingAuthority

/-- What stands before the path. -/
def base : Parts → List Char
  | .local _ => []
  | .located none authority _ => '/' :: '/' :: authority.render
  | .located (some scheme) authority _ => scheme ++ ':' :: '/' :: '/' :: authority.render

def path? : Parts → Option Path
  | .local path => some path
  | .located _ _ path => path

def authority? : Parts → Option Authority
  | .local _ => none
  | .located _ authority _ => some authority

def scheme? : Parts → Option (List Char)
  | .local _ => none
  | .located scheme _ _ => scheme

def render (p : Parts) : List Char :=
  p.base ++
  (match p.path? with
    | some path => path.render
    | none => [])

structure WellFormed (p : Parts) : Prop where
  scheme : ∀ scheme, p.scheme? = some scheme → isScheme scheme = true
  authority : ∀ authority, p.authority? = some authority → authority.WellFormed
  path : ∀ path, p.path? = some path → path.WellFormed

end Parts

end Uri

end RevisionGraph
