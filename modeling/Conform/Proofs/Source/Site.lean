import Conform.Proofs.Source.Recast

/-!
What an outline tells, in tokens. The names of its namespaces and the targets of its using directives
are read from tokens of the source, and each of its methods from a site: a declaration with the
documentation comments above it (`Outline.methods_eq`). These tokens change as the tokens of the
source change (`Outline.sites_map`).
-/

set_option autoImplicit false

namespace Conform.Source

/-- A declaration of a type body, below a run of documentation comments. -/
structure Site where
  docs : List Token
  header : Header
  ending : Ending

namespace Site

/-- The method that is read from a site, if it is one. -/
def method? (site : Site) : Option Method :=
  Method.ofDeclaration? (site.docs.map Token.text) site.header site.ending

def map (f : Token → Token) (site : Site) : Site :=
  ⟨site.docs.map f, site.header.map (Piece.map f), site.ending.map f⟩

end Site

namespace Outline

/-- The tokens that the names of all namespaces are read from. -/
def spaceTokens : Outline → List (List Token)
  | empty => []
  | comment _ rest => rest.spaceTokens
  | directive _ rest => rest.spaceTokens
  | declaration header _ members rest =>
    (Header.spaceTokens? header).toList ++ members.spaceTokens ++ rest.spaceTokens

/-- The pieces that the targets of all using directives are named in. -/
def importPieces : Outline → List (List Piece)
  | empty => []
  | comment _ rest => rest.importPieces
  | directive _ rest => rest.importPieces
  | declaration header ending members rest =>
    (match ending with
      | .semicolon => (Header.importPieces? header).toList
      | _ => []) ++ members.importPieces ++ rest.importPieces

/-- The tokens that the targets of all using directives are read from. -/
def importTokens (outline : Outline) : List (List Token) :=
  outline.importPieces.map Header.lastTokens

/-- The sites of an outline that stands in a type or not, below a run of documentation comments. -/
def sites (inType : Bool) (docs : List Token) : Outline → List Site
  | empty => []
  | comment token rest => rest.sites inType (if token.isDoc then docs ++ [token] else [])
  | directive _ rest => rest.sites inType []
  | declaration header ending members rest =>
    (if inType then [⟨docs, header, ending⟩] else []) ++
      members.sites (Header.isType header) [] ++ rest.sites inType []

theorem spaceNames_eq (outline : Outline) :
    outline.spaceNames = outline.spaceTokens.map Token.joined := by
  induction outline with
  | empty => rfl
  | comment token rest ih => exact ih
  | directive token rest ih => exact ih
  | declaration header ending members rest ihMembers ihRest =>
    rw [spaceNames, ihMembers, ihRest, Header.spaceName?_eq, spaceTokens, List.map_append,
      List.map_append]
    cases Header.spaceTokens? header <;> rfl

theorem imports_eq (outline : Outline) : outline.imports = outline.importTokens.map Token.joined := by
  have hlast : outline.importTokens.map Token.joined = outline.importPieces.map Header.lastNamed := by
    rw [importTokens, List.map_map]
    exact List.map_congr_left fun pieces _ ↦ (Header.lastNamed_eq pieces).symm
  rw [hlast]
  clear hlast
  induction outline with
  | empty => rfl
  | comment token rest ih => exact ih
  | directive token rest ih => exact ih
  | declaration header ending members rest ihMembers ihRest =>
    have hown : (Header.importTarget? header).toList =
        (Header.importPieces? header).toList.map Header.lastNamed := by
      rw [Header.importTarget?_eq]
      cases Header.importPieces? header <;> rfl
    cases ending <;>
      simp only [imports, importPieces, ihMembers, ihRest, hown, List.map_append, List.map_nil]

theorem methods_eq (outline : Outline) (inType : Bool) (docs : List Token) :
    outline.methods inType (docs.map Token.text) =
      (outline.sites inType docs).filterMap Site.method? := by
  induction outline generalizing inType docs with
  | empty => rfl
  | comment token rest ih =>
    rw [methods, sites, ← ih]
    split
    · rw [List.map_append, List.map_singleton]
    · rfl
  | directive token rest ih => exact ih inType []
  | declaration header ending members rest ihMembers ihRest =>
    have hmembers := ihMembers (Header.isType header) []
    have hrest := ihRest inType []
    rw [List.map_nil] at hmembers hrest
    rw [methods, sites, List.filterMap_append, List.filterMap_append, hmembers, hrest]
    cases inType with
    | false => rfl
    | true =>
      simp only [if_true, List.filterMap_cons, List.filterMap_nil, Site.method?]
      cases Method.ofDeclaration? (docs.map Token.text) header ending <;> rfl

/-! ### Changed tokens -/

section Alike

variable {f : Token → Token} (hf : ∀ token : Token, token.Alike (f token))
include hf

theorem spaceTokens_map (outline : Outline) :
    (outline.map f).spaceTokens = outline.spaceTokens.map (List.map f) := by
  induction outline with
  | empty => rfl
  | comment token rest ih => exact ih
  | directive token rest ih => exact ih
  | declaration header ending members rest ihMembers ihRest =>
    rw [map, spaceTokens, ihMembers, ihRest, Header.spaceTokens?_map hf, spaceTokens,
      List.map_append, List.map_append]
    cases Header.spaceTokens? header <;> rfl

theorem importPieces_map (outline : Outline) :
    (outline.map f).importPieces = outline.importPieces.map (List.map (Piece.map f)) := by
  induction outline with
  | empty => rfl
  | comment token rest ih => exact ih
  | directive token rest ih => exact ih
  | declaration header ending members rest ihMembers ihRest =>
    have hown : (Header.importPieces? (header.map (Piece.map f))).toList =
        (Header.importPieces? header).toList.map (List.map (Piece.map f)) := by
      rw [Header.importPieces?_map hf]
      cases Header.importPieces? header <;> rfl
    cases ending <;>
      simp only [map, Ending.map, importPieces, ihMembers, ihRest, hown, List.map_append,
        List.map_nil]

theorem importTokens_map (outline : Outline) :
    (outline.map f).importTokens = outline.importTokens.map (List.map f) := by
  rw [importTokens, importPieces_map hf, importTokens, List.map_map, List.map_map]
  exact List.map_congr_left fun pieces _ ↦ Header.lastTokens_map hf pieces

theorem sites_map (outline : Outline) (inType : Bool) (docs : List Token) :
    (outline.map f).sites inType (docs.map f) = (outline.sites inType docs).map (Site.map f) := by
  induction outline generalizing inType docs with
  | empty => rfl
  | comment token rest ih =>
    rw [map, sites, sites, (hf token).isDoc_eq, ← ih]
    split
    · rw [List.map_append, List.map_singleton]
    · rfl
  | directive token rest ih => exact ih inType []
  | declaration header ending members rest ihMembers ihRest =>
    have hmembers := ihMembers (Header.isType header) []
    have hrest := ihRest inType []
    rw [List.map_nil] at hmembers hrest
    rw [map, sites, sites, Header.isType_map hf, hmembers, hrest, List.map_append, List.map_append]
    cases inType <;> rfl

end Alike

end Outline

end Conform.Source
