import Conform.Dialect
import Conform.Proofs.Text.Occurrence

/-!
The names that tell a hook in an entity file. A pattern of a front part, word characters and a back
part captures the segment that the two frame, whichever of its ways the repetition tries first
(`capture?_eq_segment?`). The rules for such patterns and for the closed list of names answer
different names (`entityRules_apart`). Asked in any order they classify a name alike, and each kind of
hook is told by exactly the names of its form (`classify?_entity`).
-/

set_option autoImplicit false

namespace Conform.Dialect

open Text

/-! ### Framed segments -/

/-- A name made of a front part, a segment of word characters and a back part. -/
structure Frames (front back segment name : String) : Prop where
  parts : name = front ++ segment ++ back
  filled : segment ≠ ""
  word : ∀ c ∈ segment.toList, isWordChar c = true

theorem frames_ofList_iff {front back name : String} {segment : List Char} :
    Frames front back (String.ofList segment) name ↔
      name.toList = front.toList ++ (segment ++ back.toList) ∧ segment ≠ [] ∧
        ∀ c ∈ segment, isWordChar c = true := by
  have hparts : name = front ++ String.ofList segment ++ back ↔
      name.toList = front.toList ++ (segment ++ back.toList) := by
    rw [← String.toList_inj, String.toList_append, String.toList_append, String.toList_ofList,
      List.append_assoc]
  have hfilled : String.ofList segment ≠ "" ↔ segment ≠ [] := by
    rw [ne_eq, ← String.toList_inj, String.toList_ofList]
    rfl
  constructor
  · rintro ⟨parts, filled, word⟩
    rw [String.toList_ofList] at word
    exact ⟨hparts.mp parts, hfilled.mp filled, word⟩
  · rintro ⟨parts, filled, word⟩
    exact ⟨hparts.mpr parts, hfilled.mpr filled, by rwa [String.toList_ofList]⟩

theorem segment?_eq_some_iff {front back name : String} {segment : List Char} :
    segment? front back name = some segment ↔ Frames front back (String.ofList segment) name := by
  rw [frames_ofList_iff, segment?]
  simp only [Option.bind_eq_bind, Option.bind_eq_some_iff, after?_eq_some_iff, before?_eq_some_iff]
  constructor
  · rintro ⟨rest, hrest, found, rfl, hfound⟩
    split at hfound
    · contradiction
    · rename_i hword
      cases hfound
      simp only [Bool.or_eq_true, List.isEmpty_iff, Bool.not_eq_true', not_or, Bool.not_eq_false,
        List.all_eq_true] at hword
      exact ⟨hrest, hword⟩
  · rintro ⟨parts, filled, word⟩
    refine ⟨_, parts, segment, rfl, if_neg ?_⟩
    simpa [filled] using word

/-! ### Patterns -/

/-- Which way a repetition tries first: the one with the fewest or the one with the most characters. -/
inductive Preference where
  | fewest
  | most
  deriving DecidableEq, Repr

def Preference.order {α : Type} : Preference → List α → List α
  | fewest, ways => ways
  | most, ways => ways.reverse

theorem Preference.mem_order_iff {α : Type} (preference : Preference) {way : α} {ways : List α} :
    way ∈ preference.order ways ↔ way ∈ ways := by
  cases preference with
  | fewest => exact Iff.rfl
  | most => exact List.mem_reverse

/-- The ways to take word characters off the front of a text, at least one, and what they leave. -/
def wordRuns : List Char → List (List Char × List Char)
  | [] => []
  | c :: rest =>
    if isWordChar c then
      ([c], rest) :: (wordRuns rest).map fun (segment, behind) ↦ (c :: segment, behind)
    else []

theorem mem_wordRuns_iff {cs segment behind : List Char} :
    (segment, behind) ∈ wordRuns cs ↔
      cs = segment ++ behind ∧ segment ≠ [] ∧ ∀ c ∈ segment, isWordChar c = true := by
  induction cs generalizing segment with
  | nil =>
    refine iff_of_false List.not_mem_nil fun hsplit ↦ hsplit.2.1 ?_
    exact (List.append_eq_nil_iff.mp hsplit.1.symm).1
  | cons c rest ih =>
    rw [wordRuns]
    split
    · rename_i hc
      rw [List.mem_cons, List.mem_map]
      constructor
      · rintro (hfirst | ⟨⟨others, left⟩, hmem, hpair⟩)
        · cases hfirst
          exact ⟨rfl, List.cons_ne_nil c [], List.forall_mem_singleton.mpr hc⟩
        · cases hpair
          obtain ⟨hrest, -, hword⟩ := ih.mp hmem
          exact ⟨congrArg (c :: ·) hrest, List.cons_ne_nil c others,
            List.forall_mem_cons.mpr ⟨hc, hword⟩⟩
      · rintro ⟨hsplit, hfilled, hword⟩
        obtain ⟨d, others, rfl⟩ := List.exists_cons_of_ne_nil hfilled
        obtain ⟨rfl, hrest⟩ := List.cons.inj hsplit
        cases others with
        | nil => exact .inl (by rw [hrest]; rfl)
        | cons e more =>
          have hmore := ih.mpr ⟨hrest, List.cons_ne_nil e more, (List.forall_mem_cons.mp hword).2⟩
          exact .inr ⟨_, hmore, rfl⟩
    · rename_i hc
      refine iff_of_false List.not_mem_nil ?_
      rintro ⟨hsplit, hfilled, hword⟩
      obtain ⟨d, others, rfl⟩ := List.exists_cons_of_ne_nil hfilled
      obtain ⟨rfl, -⟩ := List.cons.inj hsplit
      exact hc (hword c List.mem_cons_self)

/-- What repeated word characters between two parts of a name capture: the first of their ways that
leaves the back part and nothing else. -/
def capture? (preference : Preference) (front back name : String) : Option (List Char) :=
  (after? front.toList name.toList).bind fun rest ↦
    ((preference.order (wordRuns rest)).find? (·.2 = back.toList)).map Prod.fst

theorem capture?_eq_some_iff {preference : Preference} {front back name : String}
    {segment : List Char} :
    capture? preference front back name = some segment ↔
      Frames front back (String.ofList segment) name := by
  have hfits : ∀ rest way, (preference.order (wordRuns rest)).find? (·.2 = back.toList) = some way →
      rest = way.1 ++ back.toList ∧ way.1 ≠ [] ∧ ∀ c ∈ way.1, isWordChar c = true := by
    rintro rest ⟨found, behind⟩ hfind
    have hback : behind = back.toList := by simpa using List.find?_some hfind
    have hmem := (preference.mem_order_iff).mp (List.mem_of_find?_eq_some hfind)
    exact hback ▸ mem_wordRuns_iff.mp hmem
  rw [frames_ofList_iff]
  simp only [capture?, Option.bind_eq_some_iff, Option.map_eq_some_iff, after?_eq_some_iff]
  constructor
  · rintro ⟨rest, hrest, way, hway, rfl⟩
    obtain ⟨hsplit, hfilled⟩ := hfits rest way hway
    exact ⟨by rw [hrest, hsplit], hfilled⟩
  · rintro ⟨parts, hfilled⟩
    refine ⟨_, parts, ?_⟩
    have hmem : (segment, back.toList) ∈
        preference.order (wordRuns (segment ++ back.toList)) :=
      (preference.mem_order_iff).mpr (mem_wordRuns_iff.mpr ⟨rfl, hfilled⟩)
    cases hfind : (preference.order (wordRuns (segment ++ back.toList))).find?
        (·.2 = back.toList) with
    | none => exact absurd (decide_eq_true rfl) (List.find?_eq_none.mp hfind _ hmem)
    | some way => exact ⟨way, rfl, (List.append_cancel_right (hfits _ way hfind).1).symm⟩

/-- A segment is captured whichever way is tried first. -/
theorem capture?_eq_segment? (preference : Preference) (front back name : String) :
    capture? preference front back name = segment? front back name :=
  Option.ext fun _ ↦ capture?_eq_some_iff.trans segment?_eq_some_iff.symm

/-! ### Rules -/

abbrev Rule := String → Option (Hook × Option String)

def fixedRule : Rule := fun name ↦
  (fixedHook? name).map (·, none)

def segmentRule (preference : Preference) (front back : String)
    (tell : List Char → Hook × Option String) : Rule := fun name ↦
  (capture? preference front back name).map tell

def actionRule (preference : Preference) : Rule :=
  segmentRule preference "On" "PropertyChange" fun segment ↦
    (.action, some (String.ofList segment))

def collectionRule (preference : Preference) : Rule :=
  segmentRule preference "Before" "EntityInitialize" fun _ ↦
    (.collectionInitialization, some collectionTarget)

def formulaRule (preference : Preference) : Rule :=
  segmentRule preference "Get" "" fun segment ↦
    (.formula, some (String.ofList (lowerFirst segment)))

/-- The rules of entity files, with the preferences of the repetitions in their patterns. -/
def entityRules (action collection formula : Preference) : List Rule :=
  [fixedRule, actionRule action, collectionRule collection, formulaRule formula]

theorem classify?_eq_findSome? (action collection formula : Preference) (name : String) :
    classify? .entity name = (entityRules action collection formula).findSome? (· name) := by
  simp only [entityRules, actionRule, collectionRule, formulaRule, segmentRule, fixedRule,
    capture?_eq_segment?, List.findSome?_cons, List.findSome?_nil, classify?, classifyEntity?]
  cases fixedHook? name with
  | some hook => rfl
  | none =>
    cases segment? "On" "PropertyChange" name with
    | some segment => rfl
    | none =>
      cases segment? "Before" "EntityInitialize" name with
      | some segment => rfl
      | none => cases segment? "Get" "" name <;> rfl

/-- The names that are a rule of their own. -/
def fixedNames : List (String × Hook) := [
  ("ExecuteInitialize", .initialization),
  ("ExecuteBeforeUpdate", .beforeChange),
  ("ExecuteAfterUpdate", .afterChange),
  ("ExecuteBeforeSave", .beforeSave),
  ("ExecuteAfterSave", .afterSave)]

theorem fixedHook?_eq_some_iff {name : String} {hook : Hook} :
    fixedHook? name = some hook ↔ (name, hook) ∈ fixedNames := by
  constructor
  · intro hknown
    unfold fixedHook? at hknown
    split at hknown
    case h_6 => contradiction
    all_goals
      cases hknown
      decide
  · intro hmem
    have hall : ∀ pair ∈ fixedNames, fixedHook? pair.1 = some pair.2 := by decide
    exact hall _ hmem

/-- A rule that answers only names with a given first character. -/
def Opens (rule : Rule) (c : Char) : Prop :=
  ∀ name, rule name ≠ none → name.toList.head? = some c

theorem opens_fixedRule : Opens fixedRule 'E' := by
  intro name hknown
  have hall : ∀ pair ∈ fixedNames, pair.1.toList.head? = some 'E' := by decide
  cases hhook : fixedHook? name with
  | none => exact absurd (by rw [fixedRule, hhook]; rfl) hknown
  | some hook => exact hall _ (fixedHook?_eq_some_iff.mp hhook)

theorem opens_segmentRule {preference : Preference} {front back : String} {c : Char}
    {tell : List Char → Hook × Option String} (hfront : front.toList.head? = some c) :
    Opens (segmentRule preference front back tell) c := by
  intro name hknown
  cases hcapture : capture? preference front back name with
  | none => exact absurd (by rw [segmentRule, hcapture]; rfl) hknown
  | some segment =>
    rw [(frames_ofList_iff.mp (capture?_eq_some_iff.mp hcapture)).1, List.head?_append, hfront,
      Option.some_or]

section Rules

variable (action collection formula : Preference)

/-- No name is answered by two rules. -/
theorem entityRules_apart (name : String) :
    (entityRules action collection formula).Pairwise fun first second ↦
      first name = none ∨ second name = none := by
  have hapart : ∀ (c d : Char) {first second : Rule}, Opens first c → Opens second d → c ≠ d →
      first name = none ∨ second name = none := by
    intro c d first second hfirst hsecond hne
    by_contra hboth
    rw [not_or] at hboth
    exact hne (Option.some.inj ((hfirst name hboth.1).symm.trans (hsecond name hboth.2)))
  have haction : Opens (actionRule action) 'O' := opens_segmentRule rfl
  have hcollection : Opens (collectionRule collection) 'B' := opens_segmentRule rfl
  have hformula : Opens (formulaRule formula) 'G' := opens_segmentRule rfl
  simp only [entityRules, List.pairwise_cons, List.forall_mem_cons]
  exact ⟨⟨hapart 'E' 'O' opens_fixedRule haction (by decide),
      hapart 'E' 'B' opens_fixedRule hcollection (by decide),
      hapart 'E' 'G' opens_fixedRule hformula (by decide), List.forall_mem_nil _⟩,
    ⟨hapart 'O' 'B' haction hcollection (by decide),
      hapart 'O' 'G' haction hformula (by decide), List.forall_mem_nil _⟩,
    ⟨hapart 'B' 'G' hcollection hformula (by decide), List.forall_mem_nil _⟩,
    List.forall_mem_nil _, .nil⟩

end Rules

/-- Assumes: rules of which no two answer. The one that does is found wherever it stands. -/
theorem findSome?_eq_some_iff_of_apart {rules : List Rule} {name : String}
    (hapart : rules.Pairwise fun first second ↦ first name = none ∨ second name = none)
    {told : Hook × Option String} :
    rules.findSome? (· name) = some told ↔ ∃ rule ∈ rules, rule name = some told := by
  constructor
  · exact List.exists_of_findSome?_eq_some
  · rintro ⟨rule, hrule, htold⟩
    induction rules with
    | nil => contradiction
    | cons first rest ih =>
      rw [List.pairwise_cons] at hapart
      rw [List.findSome?_cons]
      rcases List.mem_cons.mp hrule with rfl | hrest
      · rw [htold]
      · rcases hapart.1 rule hrest with hnone | hnone
        · rw [hnone]
          exact ih hapart.2 hrest
        · rw [htold] at hnone
          contradiction

/-- The rules in another order find the same. -/
theorem findSome?_perm {rules others : List Rule} (hperm : rules.Perm others) {name : String}
    (hapart : others.Pairwise fun first second ↦ first name = none ∨ second name = none) :
    rules.findSome? (· name) = others.findSome? (· name) := by
  have hrules : rules.Pairwise fun first second ↦ first name = none ∨ second name = none :=
    (hperm.pairwise_iff Or.symm).mpr hapart
  refine Option.ext fun told ↦ ?_
  rw [findSome?_eq_some_iff_of_apart hrules, findSome?_eq_some_iff_of_apart hapart]
  exact exists_congr fun rule ↦ and_congr_left fun _ ↦ hperm.mem_iff

/-! ### The grammar of names -/

/-- What a name in an entity file tells. -/
inductive Tells (name : String) : Hook × Option String → Prop
  | fixed {hook : Hook} (hname : (name, hook) ∈ fixedNames) : Tells name (hook, none)
  | action {segment : String} (hname : Frames "On" "PropertyChange" segment name) :
      Tells name (.action, some segment)
  | collection {segment : String} (hname : Frames "Before" "EntityInitialize" segment name) :
      Tells name (.collectionInitialization, some "collection")
  | formula {first : Char} {rest : List Char}
      (hname : Frames "Get" "" (String.ofList (first :: rest)) name) :
      Tells name (.formula, some (String.ofList (lowerChar first ++ rest)))

theorem segmentRule_eq_some_iff {preference : Preference} {front back name : String}
    {tell : List Char → Hook × Option String} {told : Hook × Option String} :
    segmentRule preference front back tell name = some told ↔
      ∃ segment, Frames front back (String.ofList segment) name ∧ tell segment = told := by
  rw [segmentRule, Option.map_eq_some_iff]
  simp only [capture?_eq_some_iff]

theorem classify?_eq_some_iff {name : String} {told : Hook × Option String} :
    classify? .entity name = some told ↔ Tells name told := by
  rw [classify?_eq_findSome? .fewest .most .most,
    findSome?_eq_some_iff_of_apart (entityRules_apart _ _ _ name), entityRules]
  constructor
  · rintro ⟨rule, hrule, htold⟩
    simp only [List.mem_cons, List.not_mem_nil, or_false] at hrule
    obtain rfl | rfl | rfl | rfl := hrule
    · obtain ⟨hook, hhook, rfl⟩ := Option.map_eq_some_iff.mp htold
      exact .fixed (fixedHook?_eq_some_iff.mp hhook)
    · obtain ⟨segment, hname, rfl⟩ := segmentRule_eq_some_iff.mp htold
      exact .action hname
    · obtain ⟨segment, hname, rfl⟩ := segmentRule_eq_some_iff.mp htold
      exact .collection hname
    · obtain ⟨segment, hname, rfl⟩ := segmentRule_eq_some_iff.mp htold
      cases segment with
      | nil => exact absurd rfl hname.filled
      | cons first rest => exact .formula hname
  · intro htells
    cases htells with
    | @fixed hook hname =>
      have htold : fixedRule name = some (hook, none) :=
        Option.map_eq_some_iff.mpr ⟨hook, fixedHook?_eq_some_iff.mpr hname, rfl⟩
      exact ⟨fixedRule, by simp, htold⟩
    | @action segment hname =>
      rw [← String.ofList_toList (s := segment)] at hname ⊢
      exact ⟨actionRule .fewest, by simp, segmentRule_eq_some_iff.mpr ⟨_, hname, rfl⟩⟩
    | @collection segment hname =>
      rw [← String.ofList_toList (s := segment)] at hname
      exact ⟨collectionRule .most, by simp, segmentRule_eq_some_iff.mpr ⟨_, hname, rfl⟩⟩
    | formula hname =>
      exact ⟨formulaRule .most, by simp, segmentRule_eq_some_iff.mpr ⟨_, hname, rfl⟩⟩

/-- A way to classify names by their form alone. -/
structure IsGrammar (classify : Rule) : Prop where
  fixed_iff : ∀ name hook, classify name = some (hook, none) ↔ (name, hook) ∈ fixedNames
  action_iff : ∀ name target, classify name = some (.action, some target) ↔
    Frames "On" "PropertyChange" target name
  /-- There is only one segment to report, also if it looks like the parts that frame it. -/
  action_unique : ∀ name first second, Frames "On" "PropertyChange" first name →
    Frames "On" "PropertyChange" second name → first = second
  collection_iff : ∀ name target, classify name = some (.collectionInitialization, some target) ↔
    target = "collection" ∧ ∃ segment, Frames "Before" "EntityInitialize" segment name
  formula_iff : ∀ name target, classify name = some (.formula, some target) ↔
    ∃ first rest, Frames "Get" "" (String.ofList (first :: rest)) name ∧
      target = String.ofList (lowerChar first ++ rest)
  none_iff : ∀ name, classify name = none ↔ (∀ hook, (name, hook) ∉ fixedNames) ∧
    ∀ segment, ¬Frames "On" "PropertyChange" segment name ∧
      ¬Frames "Before" "EntityInitialize" segment name ∧ ¬Frames "Get" "" segment name

theorem isGrammar_entity : IsGrammar (classify? .entity) where
  fixed_iff name hook := by
    rw [classify?_eq_some_iff]
    exact ⟨fun htells ↦ by cases htells; assumption, .fixed⟩
  action_iff name target := by
    rw [classify?_eq_some_iff]
    exact ⟨fun htells ↦ by cases htells; assumption, .action⟩
  action_unique name first second hfirst hsecond := by
    rw [← String.ofList_toList (s := first)] at hfirst
    rw [← String.ofList_toList (s := second)] at hsecond
    have hsame := (segment?_eq_some_iff.mpr hfirst).symm.trans (segment?_eq_some_iff.mpr hsecond)
    exact String.toList_inj.mp (Option.some.inj hsame)
  collection_iff name target := by
    rw [classify?_eq_some_iff]
    constructor
    · intro htells
      cases htells with
      | collection hname => exact ⟨rfl, _, hname⟩
    · rintro ⟨rfl, segment, hname⟩
      exact .collection hname
  formula_iff name target := by
    rw [classify?_eq_some_iff]
    constructor
    · intro htells
      cases htells with
      | formula hname => exact ⟨_, _, hname, rfl⟩
    · rintro ⟨first, rest, hname, rfl⟩
      exact .formula hname
  none_iff name := by
    rw [Option.eq_none_iff_forall_ne_some]
    constructor
    · intro hnone
      refine ⟨fun hook hname ↦ hnone _ (classify?_eq_some_iff.mpr (.fixed hname)), fun segment ↦
        ⟨fun hname ↦ hnone _ (classify?_eq_some_iff.mpr (.action hname)),
          fun hname ↦ hnone _ (classify?_eq_some_iff.mpr (.collection hname)), fun hname ↦ ?_⟩⟩
      obtain ⟨first, rest, hsegment⟩ := List.exists_cons_of_ne_nil
        fun hnil ↦ hname.filled (String.toList_eq_nil_iff.mp hnil)
      rw [← String.ofList_toList (s := segment), hsegment] at hname
      exact hnone _ (classify?_eq_some_iff.mpr (.formula hname))
    · rintro ⟨hfixed, hframes⟩ told htold
      cases classify?_eq_some_iff.mp htold with
      | fixed hname => exact hfixed _ hname
      | action hname => exact (hframes _).1 hname
      | collection hname => exact (hframes _).2.1 hname
      | formula hname => exact (hframes _).2.2 hname

/-- Names in entity files are classified by their form. The rules for it never answer the same name,
so neither their order nor the ways that their patterns try first matter. -/
theorem classify?_entity : IsGrammar (classify? .entity) ∧
    ∀ (action collection formula : Preference) (name : String),
      ((entityRules action collection formula).Pairwise fun first second ↦
        first name = none ∨ second name = none) ∧
      ∀ rules : List Rule, rules.Perm (entityRules action collection formula) →
        rules.findSome? (· name) = classify? .entity name := by
  refine ⟨isGrammar_entity, fun action collection formula name ↦ ?_⟩
  have hapart := entityRules_apart action collection formula name
  refine ⟨hapart, fun rules hperm ↦ ?_⟩
  rw [findSome?_perm hperm hapart, ← classify?_eq_findSome?]

/-- A segment that is itself made of a front and a back part, with the rules asked backwards. -/
theorem classify?_entity_nested :
    [formulaRule .fewest, collectionRule .fewest, actionRule .most, fixedRule].findSome?
      (· "OnOnPropertyChangePropertyChange") = some (.action, some "OnPropertyChange") :=
  ((classify?_entity.2 .most .fewest .fewest _).2 _ (List.reverse_perm _)).trans
    ((classify?_entity.1.action_iff _ _).mpr ⟨by decide, by decide, by decide⟩)

end Conform.Dialect
