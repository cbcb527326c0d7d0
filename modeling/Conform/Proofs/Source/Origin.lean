import Conform.Proofs.Source.Pairing
import Conform.Proofs.Source.Site
import Mathlib.Data.List.Basic

/-!
Where the tokens of an outline are from. They are among those that have been read
(`Outline.all_read`), so what a source tells depends on its own tokens alone: if the tokens of another
source are those tokens, changed so that they are read as they were, it tells the same in the changed
tokens (`Recast.methods_eq`).
-/

set_option autoImplicit false

namespace Conform.Source

/-! ### Where the tokens are from -/

variable {P : Token → Prop} {Q : Forest → Prop}

/-- Whether what holds of a row holds of all that stands in it. -/
structure Forest.Hereditary (Q : Forest → Prop) : Prop where
  leaf : ∀ {token : Token} {rest : Forest}, Q (leaf token rest) → Q rest
  group : ∀ {opening : Token} {inner : Forest} {closing : Option Token} {rest : Forest},
    Q (group opening inner closing rest) → Q inner ∧ Q rest

/-- Whether something holds of all tokens of a header. -/
def Header.All (P : Token → Prop) (header : Header) : Prop :=
  ∀ piece ∈ header, ∀ token ∈ piece.tokens, P token

/-- Whether something holds of all tokens of a block, and something of its content. -/
def Ending.All (P : Token → Prop) (Q : Forest → Prop) : Ending → Prop
  | block opening inner closing =>
    (∀ token ∈ opening :: inner.tokens ++ closing.toList, P token) ∧ Q inner
  | _ => True

structure Draft.All (P : Token → Prop) (Q : Forest → Prop) (draft : Draft) : Prop where
  header : Header.All P draft.reversed
  ending : ∀ ending ∈ draft.ending, ending.All P Q

def Outline.All (P : Token → Prop) (Q : Forest → Prop) : Outline → Prop
  | empty => True
  | comment token rest => P token ∧ rest.All P Q
  | directive token rest => P token ∧ rest.All P Q
  | declaration header ending members rest =>
    header.All P ∧ ending.All P Q ∧ members.All P Q ∧ rest.All P Q

theorem Draft.all_empty : ({} : Draft).All P Q :=
  ⟨nofun, nofun⟩

theorem Draft.All.add {draft : Draft} (hdraft : draft.All P Q) {piece : Piece}
    (hpiece : ∀ token ∈ piece.tokens, P token) : (draft.add piece).All P Q := by
  unfold Draft.add
  split
  · exact hdraft
  · split
    · exact hdraft
    · split
      · exact ⟨hdraft.header, by rintro _ ⟨⟩; trivial⟩
      · split
        · exact ⟨hdraft.header, by rintro _ ⟨⟩; trivial⟩
        · exact ⟨List.forall_mem_cons.mpr ⟨hpiece, hdraft.header⟩, hdraft.ending⟩

namespace Outline

theorem all_declare {draft : Draft} (hdraft : draft.All P Q) (ending : Ending)
    (hending : ending.All P Q) {members rest : Outline} (hmembers : members.All P Q)
    (hrest : rest.All P Q) : (draft.declare ending members rest).All P Q := by
  refine ⟨fun piece hmem ↦ hdraft.header piece (List.mem_reverse.mp hmem), ?_, hmembers, hrest⟩
  cases hstored : draft.ending with
  | none => exact hending
  | some stored => exact hdraft.ending stored hstored

theorem all_close {draft : Draft} (hdraft : draft.All P Q) {rest : Outline} (hrest : rest.All P Q) :
    (draft.close rest).All P Q := by
  unfold Draft.close
  split
  · exact hrest
  · exact all_declare hdraft .semicolon trivial trivial hrest

theorem all_finish {draft : Draft} (hdraft : draft.All P Q) (isCut : Bool) {rest : Outline}
    (hrest : rest.All P Q) : ((if isCut then draft.close else id) rest).All P Q := by
  cases isCut with
  | true => exact all_close hdraft hrest
  | false => exact hrest

theorem all_cut {draft : Draft} (hdraft : draft.All P Q) (isCut : Bool) :
    (if isCut then {} else draft).All P Q := by
  cases isCut with
  | true => exact Draft.all_empty
  | false => exact hdraft

/-- What holds of all tokens and rows that are read holds of those of the outline. -/
theorem all_read (hQ : Forest.Hereditary Q) {forest : Forest}
    (htokens : ∀ token ∈ forest.tokens, P token) (hforest : Q forest) (course : Course)
    {draft : Draft} (hdraft : draft.All P Q) : (read course draft forest).All P Q := by
  induction forest generalizing course draft with
  | empty => exact all_close hdraft trivial
  | leaf token rest ih =>
    rw [Forest.tokens, List.forall_mem_cons] at htokens
    obtain ⟨htoken, hrest⟩ := htokens
    have hpiece : ∀ single ∈ (Piece.token token).tokens, P single := by
      rintro single hmem
      rwa [List.mem_singleton.mp hmem]
    have hnext : ∀ course {draft : Draft}, draft.All P Q → (read course draft rest).All P Q :=
      fun course _ hdraft ↦ ih hrest (hQ.leaf hforest) course hdraft
    simp only [read]
    generalize course.step (Sign.ofToken token rest) rest = step
    have hkept := all_cut hdraft step.isCut
    generalize (if step.isCut then {} else draft) = kept at hkept ⊢
    split
    · split
      · exact all_finish hdraft _ (all_declare (hkept.add hpiece) .semicolon trivial trivial
          (hnext _ Draft.all_empty))
      · exact all_finish hdraft _ (hnext _ (hkept.add hpiece))
    · split
      · exact all_finish hdraft _ ⟨htoken, hnext _ hkept⟩
      · exact all_finish hdraft _ ⟨htoken, hnext _ hkept⟩
      · exact all_finish hdraft _ (hnext _ hkept)
  | group opening inner closing rest ihInner ihRest =>
    rw [Forest.tokens, List.forall_mem_append] at htokens
    obtain ⟨hgroup, hrest⟩ := htokens
    have hinner : ∀ token ∈ inner.tokens, P token := fun token hmem ↦ hgroup token (by simp [hmem])
    have hpiece : ∀ token ∈ (Piece.group opening inner.tokens closing).tokens, P token := hgroup
    have hnext : ∀ course {draft : Draft}, draft.All P Q → (read course draft rest).All P Q :=
      fun course _ hdraft ↦ ihRest hrest (hQ.group hforest).2 course hdraft
    simp only [read]
    generalize course.step (Sign.ofGroup opening inner) rest = step
    have hkept := all_cut hdraft step.isCut
    generalize (if step.isCut then {} else draft) = kept at hkept ⊢
    split
    · refine all_finish hdraft _ (all_declare hkept (.block opening inner closing)
        ⟨hgroup, (hQ.group hforest).1⟩ ?_ (hnext _ Draft.all_empty))
      split
      · exact ihInner hinner (hQ.group hforest).1 _ Draft.all_empty
      · trivial
    · exact all_finish hdraft _ (hnext _ (hkept.add hpiece))

end Outline

namespace Header

theorem mem_writtenTokens {pieces : List Piece} {token : Token}
    (htoken : token ∈ writtenTokens pieces) : ∃ piece ∈ pieces, token ∈ piece.tokens := by
  obtain ⟨piece, hpiece, hmem⟩ := List.mem_flatMap.mp htoken
  refine ⟨piece, ?_, hmem⟩
  exact (List.dropWhile_sublist _).subset (List.mem_reverse.mp
    ((List.dropWhile_sublist _).subset (List.mem_reverse.mp hpiece)))

/-- The last thing named is the name, or a directive alone. -/
theorem lastTokens_cases (pieces : List Piece) : lastTokens pieces = writtenTokens pieces ∨
    ∃ directive, Piece.token directive ∈ pieces ∧ directive.kind = .directive ∧
      lastTokens pieces = [directive] := by
  unfold lastTokens
  cases hfound : (pieces.reverse.takeWhile Piece.isTrivia).findSome? lineDirectiveToken? with
  | none => exact .inl rfl
  | some directive =>
    obtain ⟨piece, hpiece, hdirective⟩ := List.exists_of_findSome?_eq_some hfound
    have hmem := List.mem_reverse.mp ((List.takeWhile_sublist _).subset hpiece)
    cases piece with
    | token single =>
      rw [lineDirectiveToken?] at hdirective
      split at hdirective
      · rename_i hkind
        obtain rfl := Option.some.inj hdirective
        exact .inr ⟨single, hmem, hkind.1, rfl⟩
      · contradiction
    | group => contradiction

theorem mem_lastTokens {pieces : List Piece} {token : Token}
    (htoken : token ∈ lastTokens pieces) : ∃ piece ∈ pieces, token ∈ piece.tokens := by
  rcases lastTokens_cases pieces with hname | ⟨directive, hmem, -, hlast⟩
  · exact mem_writtenTokens (hname ▸ htoken)
  · rw [hlast] at htoken
    exact ⟨.token directive, hmem, htoken⟩

theorem mem_of_mem_afterWord? {text : String} {header : Header} {pieces : List Piece}
    (hpieces : afterWord? text header = some pieces) {piece : Piece} (hpiece : piece ∈ pieces) :
    piece ∈ header := by
  unfold afterWord? at hpieces
  split at hpieces
  · contradiction
  · rename_i first rest hfound
    obtain rfl := Option.some.inj hpieces
    refine (List.dropWhile_sublist (!·.isWord text)).subset ?_
    rw [hfound]
    exact List.mem_cons_of_mem first hpiece

theorem All.spaceTokens? {header : Header} (hheader : header.All P) {tokens : List Token}
    (htokens : spaceTokens? header = some tokens) : ∀ token ∈ tokens, P token := by
  unfold Header.spaceTokens? at htokens
  split at htokens
  · obtain ⟨pieces, hpieces, rfl⟩ := Option.map_eq_some_iff.mp htokens
    intro token htoken
    obtain ⟨piece, hpiece, hmem⟩ := mem_writtenTokens htoken
    exact hheader piece (mem_of_mem_afterWord? hpieces hpiece) token hmem
  · contradiction

theorem All.importPieces? {header : Header} (hheader : header.All P) {pieces : List Piece}
    (hpieces : importPieces? header = some pieces) : Header.All P pieces := by
  unfold Header.importPieces? at hpieces
  split at hpieces
  · obtain ⟨behind, hbehind, htarget⟩ := Option.bind_eq_some_iff.mp hpieces
    have hpart : ∀ part : List Piece, (∀ piece ∈ part, piece ∈ behind) → Header.All P part :=
      fun part hpart piece hpiece ↦ hheader piece (mem_of_mem_afterWord? hbehind (hpart piece hpiece))
    dsimp only at htarget
    split at htarget
    · split at htarget
      · contradiction
      · obtain rfl := Option.some.inj htarget
        exact hpart _ fun piece hpiece ↦ (List.dropWhile_sublist _).subset hpiece
    · rename_i mark target hmark
      split at htarget
      · obtain rfl := Option.some.inj htarget
        refine hpart _ fun piece hpiece ↦ (List.dropWhile_sublist isUsingModifier).subset ?_
        refine (List.dropWhile_sublist (!·.isMark "=")).subset ?_
        rw [hmark]
        exact List.mem_cons_of_mem mark hpiece
      · contradiction
  · contradiction

end Header

/-- Whether something holds of all tokens of a site, and something of the content of its block. -/
structure Site.All (P : Token → Prop) (Q : Forest → Prop) (site : Site) : Prop where
  docs : ∀ token ∈ site.docs, P token ∧ token.isDoc = true
  header : site.header.All P
  ending : site.ending.All P Q

namespace Outline

theorem All.spaceTokens {outline : Outline} (houtline : outline.All P Q) :
    ∀ tokens ∈ outline.spaceTokens, ∀ token ∈ tokens, P token := by
  induction outline with
  | empty => nofun
  | comment token rest ih => exact ih houtline.2
  | directive token rest ih => exact ih houtline.2
  | declaration header ending members rest ihMembers ihRest =>
    obtain ⟨hheader, -, hmembers, hrest⟩ := houtline
    intro tokens htokens
    rw [Outline.spaceTokens, List.mem_append, List.mem_append, Option.mem_toList] at htokens
    rcases htokens with (hown | htokens) | htokens
    · exact hheader.spaceTokens? hown
    · exact ihMembers hmembers tokens htokens
    · exact ihRest hrest tokens htokens

theorem All.importPieces {outline : Outline} (houtline : outline.All P Q) :
    ∀ pieces ∈ outline.importPieces, Header.All P pieces := by
  induction outline with
  | empty => nofun
  | comment token rest ih => exact ih houtline.2
  | directive token rest ih => exact ih houtline.2
  | declaration header ending members rest ihMembers ihRest =>
    obtain ⟨hheader, -, hmembers, hrest⟩ := houtline
    intro pieces hpieces
    have hfound : pieces ∈ (Header.importPieces? header).toList ∨ pieces ∈ members.importPieces ∨
        pieces ∈ rest.importPieces := by
      cases ending with
      | semicolon => simpa [Outline.importPieces] using hpieces
      | _ => exact .inr (by simpa [Outline.importPieces] using hpieces)
    rcases hfound with hown | hpieces | hpieces
    · exact hheader.importPieces? (Option.mem_toList.mp hown)
    · exact ihMembers hmembers pieces hpieces
    · exact ihRest hrest pieces hpieces

theorem All.importTokens {outline : Outline} (houtline : outline.All P Q) :
    ∀ tokens ∈ outline.importTokens, ∀ token ∈ tokens, P token := by
  intro tokens htokens token htoken
  obtain ⟨pieces, hpieces, rfl⟩ := List.mem_map.mp htokens
  obtain ⟨piece, hpiece, hmem⟩ := Header.mem_lastTokens htoken
  exact houtline.importPieces pieces hpieces piece hpiece token hmem

theorem All.sites {outline : Outline} (houtline : outline.All P Q) (inType : Bool)
    {docs : List Token} (hdocs : ∀ token ∈ docs, P token ∧ token.isDoc = true) :
    ∀ site ∈ outline.sites inType docs, site.All P Q := by
  induction outline generalizing inType docs with
  | empty => nofun
  | comment token rest ih =>
    refine ih houtline.2 inType ?_
    split
    · rename_i hdoc
      rw [List.forall_mem_append, List.forall_mem_singleton]
      exact ⟨hdocs, houtline.1, hdoc⟩
    · simp
  | directive token rest ih => exact ih houtline.2 inType (by simp)
  | declaration header ending members rest ihMembers ihRest =>
    obtain ⟨hheader, hending, hmembers, hrest⟩ := houtline
    intro site hsite
    rw [Outline.sites, List.mem_append, List.mem_append] at hsite
    rcases hsite with (hown | hsite) | hsite
    · cases inType with
      | true =>
        obtain rfl := List.mem_singleton.mp hown
        exact ⟨hdocs, hheader, hending⟩
      | false => contradiction
    · exact ihMembers hmembers _ (by simp) site hsite
    · exact ihRest hrest _ (by simp) site hsite

end Outline

/-! ### Whole sources -/

/-- A body with its spans moved. -/
def Body.map (move : Nat → Nat) : Body → Body
  | block span statements => block (span.map move) (statements.map (Span.map move))
  | expression => expression
  | missing => missing

section Alike

variable {f : Token → Token} {move : Nat → Nat} {tokens : List Token}

theorem Body.ofEnding_map (hf : ∀ token : Token, token.Alike (f token))
    (hmoves : Forest.Moves f move tokens) {ending : Ending}
    (hending : ending.All (· ∈ tokens) (Forest.KeepsOpenings f)) :
    ofEnding (ending.map f) = (ofEnding ending).map (Body.map move) := by
  cases ending with
  | block opening inner closing =>
    obtain ⟨htokens, hinner⟩ := hending
    have hgroup : Forest.Moves f move (opening :: inner.tokens ++ closing.toList) :=
      fun token htoken ↦ hmoves token (htokens token htoken)
    have hstatements := Forest.statements?_map hf hinner
      fun token htoken ↦ hgroup token (by simp [htoken])
    rw [Ending.map, ofEnding, Forest.groupStop_map hgroup, hstatements,
      (hgroup opening (by simp)).1]
    rfl
  | _ => rfl

/-- The method of a changed site. -/
theorem Site.method?_map (hf : ∀ token : Token, token.Alike (f token))
    (hmoves : Forest.Moves f move tokens) {site : Site}
    (hsite : site.All (· ∈ tokens) (Forest.KeepsOpenings f)) :
    (site.map f).method? = site.method?.map fun method ↦
      { identifier := method.identifier
        line := Header.row (site.header.map (Piece.map f)) + 1
        body := method.body.map move
        docs := site.docs.map fun token ↦ (f token).text } := by
  rw [method?, method?, Site.map, Method.ofDeclaration?, Method.ofDeclaration?,
    Header.methodName?_map hf, Body.ofEnding_map hf hmoves hsite.ending, List.map_map]
  cases Header.methodName? site.header with
  | none => rfl
  | some name => cases Body.ofEnding site.ending <;> rfl

end Alike

theorem Forest.hereditary_keepsOpenings (f : Token → Token) :
    Forest.Hereditary (Forest.KeepsOpenings f) :=
  ⟨id, And.right⟩

theorem Header.All.map_congr {f g : Token → Token} {header : Header}
    (hheader : header.All fun token ↦ f token = g token) :
    header.map (Piece.map f) = header.map (Piece.map g) := by
  refine List.map_congr_left fun piece hpiece ↦ ?_
  have htokens := hheader piece hpiece
  cases piece with
  | token single => exact congrArg Piece.token (htokens single (List.mem_singleton_self _))
  | group opening inner closing =>
    rw [Piece.tokens, List.cons_append, List.forall_mem_cons, List.forall_mem_append] at htokens
    obtain ⟨hopening, hinner, hclosing⟩ := htokens
    rw [Piece.map, Piece.map, hopening, List.map_congr_left hinner]
    cases closing with
    | none => rfl
    | some closing => rw [Option.map_some, Option.map_some, hclosing closing (by simp)]

def Outline.ofSource (source : List Char) : Outline :=
  ofForest (Forest.ofSource source)

theorem Site.method?_eq_some {site : Site} {method : Method} (hmethod : site.method? = some method) :
    method.line = Header.row site.header + 1 ∧ method.docs = site.docs.map Token.text := by
  unfold method? Method.ofDeclaration? at hmethod
  obtain ⟨name, -, hbody⟩ := Option.bind_eq_some_iff.mp hmethod
  obtain ⟨body, -, hmethod⟩ := Option.bind_eq_some_iff.mp hbody
  cases hmethod
  exact ⟨rfl, rfl⟩

theorem Structure.methods_eq_sites (source : List Char) :
    (ofSource source).methods =
      ((Outline.ofSource source).sites false []).filterMap Site.method? :=
  Outline.methods_eq (Outline.ofSource source) false []

/-- Whether the tokens of a source are those of another one, changed so that they are read as they
were, and moved. -/
structure Recast (source other : List Char) (f : Token → Token) (move : Nat → Nat) : Prop where
  tokens_eq : Token.ofSource other = (Token.ofSource source).map f
  alike : ∀ token ∈ Token.ofSource source, token.Alike (f token)
  moves : Forest.Moves f move (Token.ofSource source)

namespace Recast

variable {source other : List Char} {f : Token → Token} {move : Nat → Nat}

theorem all_ofSource (f : Token → Token) (halike : ∀ token : Token, token.Alike (f token))
    (source : List Char) : (Outline.ofSource source).All (· ∈ Token.ofSource source)
      (Forest.KeepsOpenings f) :=
  Outline.all_read (Forest.hereditary_keepsOpenings f)
    (fun token htoken ↦ by rwa [Forest.tokens_ofTokens] at htoken)
    (Forest.keepsOpenings_ofTokens halike _) _ Draft.all_empty

theorem joined_within {rows : List (List Token)}
    (hrows : ∀ tokens ∈ rows, ∀ token ∈ tokens, token ∈ Token.ofSource source) :
    (rows.map (List.map (Token.within (Token.ofSource source) f))).map Token.joined =
      rows.map fun tokens ↦ Token.joined (tokens.map f) := by
  rw [List.map_map]
  refine List.map_congr_left fun tokens htokens ↦ congrArg Token.joined ?_
  exact List.map_congr_left fun token htoken ↦ Token.within_of_mem (hrows tokens htokens token htoken)

variable (hrecast : Recast source other f move)
include hrecast

theorem alike_within (token : Token) : token.Alike (Token.within (Token.ofSource source) f token) :=
  Token.alike_within hrecast.alike token

theorem outline_eq : Outline.ofSource other =
    (Outline.ofSource source).map (Token.within (Token.ofSource source) f) := by
  rw [Outline.ofSource, Forest.ofSource, hrecast.tokens_eq, ← Token.map_within,
    Outline.ofForest_map hrecast.alike_within]
  rfl

theorem spaceNames_eq : (Structure.ofSource other).spaceNames =
    (Outline.ofSource source).spaceTokens.map fun tokens ↦ Token.joined (tokens.map f) := by
  have hall := all_ofSource _ hrecast.alike_within source
  change (Outline.ofSource other).spaceNames = _
  rw [Outline.spaceNames_eq, hrecast.outline_eq, Outline.spaceTokens_map hrecast.alike_within,
    joined_within hall.spaceTokens]

theorem imports_eq : (Structure.ofSource other).imports =
    (Outline.ofSource source).importTokens.map fun tokens ↦ Token.joined (tokens.map f) := by
  have hall := all_ofSource _ hrecast.alike_within source
  change (Outline.ofSource other).imports = _
  rw [Outline.imports_eq, hrecast.outline_eq, Outline.importTokens_map hrecast.alike_within,
    joined_within hall.importTokens]

theorem methods_eq : (Structure.ofSource other).methods =
    ((Outline.ofSource source).sites false []).filterMap fun site ↦
      site.method?.map fun method ↦
        { identifier := method.identifier
          line := Header.row (site.header.map (Piece.map f)) + 1
          body := method.body.map move
          docs := site.docs.map fun token ↦ (f token).text } := by
  have hall := all_ofSource _ hrecast.alike_within source
  have hmoves : Forest.Moves (Token.within (Token.ofSource source) f) move
      (Token.ofSource source) := by
    intro token htoken
    rw [Token.within_of_mem htoken]
    exact hrecast.moves token htoken
  change (Outline.ofSource other).methods false (List.map Token.text []) = _
  rw [Outline.methods_eq, hrecast.outline_eq, ← List.map_nil,
    Outline.sites_map hrecast.alike_within, List.filterMap_map]
  refine List.filterMap_congr fun site hsite ↦ ?_
  have hsite := hall.sites false (by simp) site hsite
  have hheader : site.header.map (Piece.map (Token.within (Token.ofSource source) f)) =
      site.header.map (Piece.map f) := Header.All.map_congr fun piece hpiece token htoken ↦
    Token.within_of_mem (hsite.header piece hpiece token htoken)
  have hdocs : (site.docs.map fun token ↦ (Token.within (Token.ofSource source) f token).text) =
      site.docs.map fun token ↦ (f token).text :=
    List.map_congr_left fun token htoken ↦
      congrArg Token.text (Token.within_of_mem (hsite.docs token htoken).1)
  rw [Function.comp_apply, Site.method?_map hrecast.alike_within hmoves hsite, hheader, hdocs]

end Recast

/-- A method is read from a site whose tokens are those of the source. -/
theorem Structure.exists_site {source : List Char} {method : Method}
    (hmethod : method ∈ (ofSource source).methods) :
    ∃ site : Site, site.method? = some method ∧
      site.All (· ∈ Token.ofSource source) fun _ ↦ True := by
  have hall : (Outline.ofSource source).All (· ∈ Token.ofSource source) fun _ ↦ True :=
    Outline.all_read ⟨fun _ ↦ trivial, fun _ ↦ ⟨trivial, trivial⟩⟩
      (fun token htoken ↦ by rwa [Forest.ofSource, Forest.tokens_ofTokens] at htoken) trivial _
      Draft.all_empty
  rw [methods_eq_sites] at hmethod
  obtain ⟨site, hsite, hfound⟩ := List.mem_filterMap.mp hmethod
  exact ⟨site, hfound, hall.sites false (by simp) site hsite⟩

end Conform.Source
