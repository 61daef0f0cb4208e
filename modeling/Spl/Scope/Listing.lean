import Spl.Scope.Table

/-!
Listings of scopes: the level of a scope, its entries by name, and then the scopes around it.
-/

namespace Spl

/-- A text filled up with blanks on the right to at least `width` characters. -/
def padRight (width : Nat) (text : String) : String :=
  text ++ String.ofList (List.replicate (width - text.length) ' ')

def Scope.listingLine (name : String) (entry : Entry) : String :=
  "    " ++ padRight 15 name ++ " : " ++ entry.text ++ "\n"

/-- The lines for the entries of one scope. -/
def Scope.listing (s : Scope) : String :=
  if s.isEmpty then "    <empty>\n"
  else String.join (s.entries.map fun (name, entry) => listingLine name entry)

/-- The listing of scopes that lie in one another, from the inside out. -/
def listingOf : List Scope → String
  | [] => ""
  | s :: outer => "  level " ++ toString outer.length ++ "\n" ++ s.listing ++ listingOf outer

/-- The listing of a scope and of those around it. -/
def SymbolTable.listing (t : SymbolTable) (id : ScopeId) : Except Fault String :=
  (t.chain id).map listingOf

end Spl
