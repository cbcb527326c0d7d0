import Conform.Proofs.Json.Pointer

/-!
What pointers read. A pointer of any spelling is a list of tokens, and the tokens decide what it
reads: different tokens take different steps in one value (`step?_inj`). So what is written where a
pointer leads is read by it, and by none of the pointers that part from it
(`lookup?_put_of_parted`); and the containers on the way keep their frames, and all locations
elsewhere their values (`onlyAt_put`).
-/

set_option autoImplicit false

namespace Conform.Json

/-! ### Frames -/

/-- Containers that differ in what they hold alone: arrays of one length, or objects of the same
names in the same order. -/
inductive SameFrame : Json → Json → Prop
  | array {items others : List Json} (hlength : items.length = others.length) :
    SameFrame (.array items) (.array others)
  | object {members others : List (String × Json)}
    (hnames : members.map Prod.fst = others.map Prod.fst) :
    SameFrame (.object members) (.object others)

/-- A change at a location and nowhere else: the containers on the way keep their frames, and what
stands apart from the location is what it was. -/
structure OnlyAt (location : Location) (old new : Json) : Prop where
  along : ∀ front back, location = front ++ back → back ≠ [] →
    ∃ before after, old.at? front = some before ∧ new.at? front = some after ∧
      SameFrame before after
  apart : ∀ other, Apart other location → new.at? other = old.at? other

section Frames

variable {value inner : Json} {step : Step} {front back : Location}

theorem map_fst_setMember {name : String} {old : Json} {members : List (String × Json)}
    (hold : member? name members = some old) (new : Json) :
    (setMember name new members).map Prod.fst = members.map Prod.fst := by
  induction members with
  | nil => simp [member?] at hold
  | cons entry rest ih =>
    obtain ⟨key, first⟩ := entry
    by_cases hkey : key = name
    · simp [setMember, hkey]
    · rw [member?, if_neg hkey] at hold
      simp [setMember, hkey, ih hold]

theorem sameFrame_setChild (hinner : value.child? step = some inner) (new : Json) :
    SameFrame value (value.setChild step new) := by
  cases value <;> cases step <;> simp only [child?, reduceCtorEq] at hinner
  case array.item items position => exact .array List.length_set.symm
  case object.member members name => exact .object (map_fst_setMember hinner new).symm

theorem at?_append_eq_some_iff {target : Json} :
    value.at? (front ++ back) = some target ↔
      ∃ inner, value.at? front = some inner ∧ inner.at? back = some target := by
  induction front generalizing value with
  | nil => simp
  | cons step rest ih =>
    simp only [List.cons_append, at?_cons, Option.bind_eq_some_iff, ih]
    constructor
    · rintro ⟨child, hchild, inner, hinner, htarget⟩
      exact ⟨inner, ⟨child, hchild, hinner⟩, htarget⟩
    · rintro ⟨inner, ⟨child, hchild, hinner⟩, htarget⟩
      exact ⟨child, hchild, inner, hinner, htarget⟩

/-- Writing at a location that exists changes nothing elsewhere. -/
theorem onlyAt_put {location : Location} (hinner : value.at? location = some inner) (new : Json) :
    OnlyAt location value (value.put location new) where
  along := by
    intro front back hlocation hback
    subst hlocation
    obtain ⟨before, hbefore, htarget⟩ := at?_append_eq_some_iff.mp hinner
    refine ⟨before, _, hbefore, by rw [put_append hbefore, at?_put_self hbefore], ?_⟩
    obtain ⟨step, rest, rfl⟩ := List.exists_cons_of_ne_nil hback
    rw [at?_cons, Option.bind_eq_some_iff] at htarget
    obtain ⟨child, hchild, -⟩ := htarget
    rw [put_cons hchild]
    exact sameFrame_setChild hchild _
  apart := by
    intro other hapart
    exact at?_put_of_apart hapart value new

end Frames

/-! ### Reading by tokens -/

namespace Pointer

/-- What tokens read in a value. -/
def lookup? (value : Json) (tokens : List (List Char)) : Option Json :=
  (locate? value tokens).bind value.at?

/-- The value that a pointer leads to. -/
def read? (document : Json) (path : String) : Option Json :=
  (resolve? document path).bind document.at?

section Lookup

variable {value inner : Json} {token other : List Char} {tokens rest : List (List Char)}
  {step : Step} {location : Location}

/-- Different tokens take different steps. -/
theorem step?_inj (htoken : step? value token = some step)
    (hother : step? value other = some step) : token = other := by
  cases value with
  | array items =>
    obtain ⟨position, hposition, rfl⟩ := Option.map_eq_some_iff.mp htoken
    obtain ⟨_, hsame, heq⟩ := Option.map_eq_some_iff.mp hother
    obtain rfl := Step.item.inj heq
    rw [position?_eq_some_iff.mp hposition, position?_eq_some_iff.mp hsame]
  | object members =>
    have hname := (Option.some.inj htoken).trans (Option.some.inj hother).symm
    exact String.ofList_injective (Step.member.inj hname)
  | _ => simp [step?] at htoken

theorem step?_setChild (value : Json) (step : Step) (new : Json) (token : List Char) :
    step? (value.setChild step new) token = step? value token := by
  cases value <;> cases step <;> rfl

theorem exists_at?_of_locate? (hlocation : locate? value tokens = some location) :
    ∃ inner, value.at? location = some inner := by
  induction tokens generalizing value location with
  | nil =>
    obtain rfl := Option.some.inj hlocation
    exact ⟨value, rfl⟩
  | cons token rest ih =>
    obtain ⟨step, child, below, -, hchild, hbelow, rfl⟩ := locate?_cons_eq_some_iff.mp hlocation
    obtain ⟨inner, hinner⟩ := ih hbelow
    exact ⟨inner, by rw [at?_cons, hchild, Option.bind_some, hinner]⟩

/-- Tokens behind others lead on from the value that those lead to. -/
theorem locate?_append_eq_some_iff {others : List (List Char)} :
    locate? value (tokens ++ others) = some location ↔
      ∃ front inner back, locate? value tokens = some front ∧ value.at? front = some inner ∧
        locate? inner others = some back ∧ location = front ++ back := by
  induction tokens generalizing value location with
  | nil => simp [locate?]
  | cons token rest ih =>
    rw [List.cons_append, locate?_cons_eq_some_iff]
    constructor
    · rintro ⟨step, child, below, hstep, hchild, hbelow, rfl⟩
      obtain ⟨front, inner, back, hfront, hinner, hback, rfl⟩ := ih.mp hbelow
      exact ⟨step :: front, inner, back,
        locate?_cons_eq_some_iff.mpr ⟨step, child, front, hstep, hchild, hfront, rfl⟩,
        by rw [at?_cons, hchild, Option.bind_some, hinner], hback, rfl⟩
    · rintro ⟨_, inner, back, hfront, hinner, hback, rfl⟩
      obtain ⟨step, child, below, hstep, hchild, hbelow, rfl⟩ :=
        locate?_cons_eq_some_iff.mp hfront
      rw [at?_cons, hchild, Option.bind_some] at hinner
      exact ⟨step, child, below ++ back, hstep, hchild,
        ih.mpr ⟨below, inner, back, hbelow, hinner, hback, rfl⟩, rfl⟩

/-- After a writing tokens still lead where the value was written. -/
theorem locate?_put (hlocation : locate? value tokens = some location) (new : Json) :
    locate? (value.put location new) tokens = some location := by
  induction tokens generalizing value location with
  | nil => exact hlocation
  | cons token rest ih =>
    obtain ⟨step, child, below, hstep, hchild, hbelow, rfl⟩ :=
      locate?_cons_eq_some_iff.mp hlocation
    rw [put_cons hchild]
    exact locate?_cons_eq_some_iff.mpr ⟨step, _, below, (step?_setChild ..).trans hstep,
      child?_setChild_self hchild _, ih hbelow, rfl⟩

section Parted

variable {others : List (List Char)} {place : Location}

/-- Assumes: tokens of which neither begin with the others. They lead to locations apart. -/
theorem apart_of_locate? (hlocation : locate? value tokens = some location)
    (hplace : locate? value others = some place) (hfront : ¬ tokens <+: others)
    (hback : ¬ others <+: tokens) : Apart location place := by
  induction tokens generalizing value location others place with
  | nil => exact absurd List.nil_prefix hfront
  | cons token rest ih =>
    cases others with
    | nil => exact absurd List.nil_prefix hback
    | cons other others =>
      obtain ⟨step, child, below, hstep, hchild, hbelow, rfl⟩ :=
        locate?_cons_eq_some_iff.mp hlocation
      obtain ⟨taken, inner, beside, htaken, hinner, hbeside, rfl⟩ :=
        locate?_cons_eq_some_iff.mp hplace
      by_cases hsame : step = taken
      · subst hsame
        obtain rfl := step?_inj hstep htaken
        obtain rfl := Option.some.inj (hchild.symm.trans hinner)
        rw [List.prefix_cons_inj] at hfront hback
        exact .along step (ih hbelow hbeside hfront hback)
      · exact .fork hsame below beside

/-- Assumes: tokens that lead to a location, and others that neither begin with them nor they with
those. The others lead where they led before the writing. -/
theorem locate?_put_of_parted (hlocation : locate? value tokens = some location)
    (hfront : ¬ tokens <+: others) (hback : ¬ others <+: tokens) (new : Json) :
    locate? (value.put location new) others = locate? value others := by
  induction tokens generalizing value location others with
  | nil => exact absurd List.nil_prefix hfront
  | cons token rest ih =>
    obtain ⟨step, child, below, hstep, hchild, hbelow, rfl⟩ :=
      locate?_cons_eq_some_iff.mp hlocation
    cases others with
    | nil => exact absurd List.nil_prefix hback
    | cons other others =>
      rw [put_cons hchild, locate?, locate?, step?_setChild]
      by_cases hsame : other = token
      · subst hsame
        rw [List.prefix_cons_inj] at hfront hback
        rw [hstep]
        simp only [Option.bind_eq_bind, Option.bind_some, child?_setChild_self hchild, hchild,
          ih hbelow hfront hback]
      · cases htaken : step? value other with
        | none => rfl
        | some taken =>
          have hne : taken ≠ step := fun h ↦ hsame (step?_inj htaken (h ▸ hstep))
          simp only [Option.bind_eq_bind, Option.bind_some, child?_setChild_of_ne hne]

/-- Under the same assumptions the others read what they read before the writing. -/
theorem lookup?_put_of_parted (hlocation : locate? value tokens = some location)
    (hfront : ¬ tokens <+: others) (hback : ¬ others <+: tokens) (new : Json) :
    lookup? (value.put location new) others = lookup? value others := by
  rw [lookup?, lookup?, locate?_put_of_parted hlocation hfront hback]
  cases hplace : locate? value others with
  | none => rfl
  | some place =>
    have hapart := apart_of_locate? hlocation hplace hfront hback
    rw [Option.bind_some, Option.bind_some, at?_put_of_apart hapart.symm]

end Parted

end Lookup

/-! ### Reading by pointers -/

/-- Pointers of which neither leads below the other or to the same place: neither's tokens begin
with those of the other. -/
def Parted (path other : String) : Prop :=
  ∀ tokens others, tokens? path.toList = some tokens → tokens? other.toList = some others →
    ¬ tokens <+: others ∧ ¬ others <+: tokens

section Paths

variable {document : Json} {path other : String} {location : Location}

theorem read?_eq_lookup? (document : Json) (path : String) :
    read? document path = (tokens? path.toList).bind (lookup? document) := by
  rw [read?, resolve?, Option.bind_assoc]
  rfl

theorem exists_tokens_of_resolve? (hlocation : resolve? document path = some location) :
    ∃ tokens, tokens? path.toList = some tokens ∧ locate? document tokens = some location :=
  Option.bind_eq_some_iff.mp hlocation

theorem exists_read?_of_resolve? (hlocation : resolve? document path = some location) :
    ∃ inner, document.at? location = some inner ∧ read? document path = some inner := by
  obtain ⟨tokens, -, htokens⟩ := exists_tokens_of_resolve? hlocation
  obtain ⟨inner, hinner⟩ := exists_at?_of_locate? htokens
  exact ⟨inner, hinner, by rw [read?, hlocation, Option.bind_some, hinner]⟩

theorem exists_resolve?_of_read? {inner : Json} (hread : read? document path = some inner) :
    ∃ location, resolve? document path = some location ∧ document.at? location = some inner :=
  Option.bind_eq_some_iff.mp hread

theorem resolve?_eq_none (hread : read? document path = none) : resolve? document path = none := by
  by_contra hsome
  obtain ⟨location, hlocation⟩ := Option.ne_none_iff_exists'.mp hsome
  obtain ⟨inner, -, hinner⟩ := exists_read?_of_resolve? hlocation
  rw [hread] at hinner
  contradiction

theorem resolve?_congr (htokens : tokens? other.toList = tokens? path.toList) (document : Json) :
    resolve? document other = resolve? document path := by
  rw [resolve?, htokens, resolve?]

theorem resolve?_put (hlocation : resolve? document path = some location) (new : Json) :
    resolve? (document.put location new) path = some location := by
  obtain ⟨tokens, hpath, htokens⟩ := exists_tokens_of_resolve? hlocation
  rw [resolve?, hpath, Option.bind_some, locate?_put htokens]

/-- A pointer reads what is written where it leads. -/
theorem read?_put_self (hlocation : resolve? document path = some location) (new : Json) :
    read? (document.put location new) path = some new := by
  obtain ⟨inner, hinner, -⟩ := exists_read?_of_resolve? hlocation
  rw [read?, resolve?_put hlocation, Option.bind_some, at?_put_self hinner]

/-- Pointers that part lead to locations apart, in every document where both lead anywhere. -/
theorem apart_of_parted {place : Location} (hlocation : resolve? document path = some location)
    (hplace : resolve? document other = some place) (hparted : Parted path other) :
    Apart location place := by
  obtain ⟨tokens, hpath, htokens⟩ := exists_tokens_of_resolve? hlocation
  obtain ⟨others, hother, hothers⟩ := exists_tokens_of_resolve? hplace
  obtain ⟨hfront, hback⟩ := hparted tokens others hpath hother
  exact apart_of_locate? htokens hothers hfront hback

/-- A pointer that parts from another leads where it led before that was written by. -/
theorem resolve?_put_of_parted (hlocation : resolve? document path = some location)
    (hparted : Parted path other) (new : Json) :
    resolve? (document.put location new) other = resolve? document other := by
  obtain ⟨tokens, hpath, htokens⟩ := exists_tokens_of_resolve? hlocation
  rw [resolve?, resolve?]
  cases hother : tokens? other.toList with
  | none => rfl
  | some others =>
    obtain ⟨hfront, hback⟩ := hparted tokens others hpath hother
    exact locate?_put_of_parted htokens hfront hback new

/-- A pointer that parts from another reads nothing of what is written where that leads. -/
theorem read?_put_of_parted (hlocation : resolve? document path = some location)
    (hparted : Parted path other) (new : Json) :
    read? (document.put location new) other = read? document other := by
  obtain ⟨tokens, hpath, htokens⟩ := exists_tokens_of_resolve? hlocation
  rw [read?_eq_lookup?, read?_eq_lookup?]
  cases hother : tokens? other.toList with
  | none => rfl
  | some others =>
    obtain ⟨hfront, hback⟩ := hparted tokens others hpath hother
    exact lookup?_put_of_parted htokens hfront hback new

end Paths

/-! ### The last token -/

/-- A pointer made of another one, a slash and a last token, which is not decoded yet. -/
def EndsIn (path front : String) (token : List Char) : Prop :=
  path.toList = front.toList ++ '/' :: token ∧ '/' ∉ token

section Last

variable {document : Json} {path front : String} {token : List Char} {location : Location}

theorem cutLast_eq_some_iff_endsIn :
    Text.cutLast '/' path.toList = some (front.toList, token) ↔ EndsIn path front token :=
  Text.cutLast_eq_some_iff

/-- Behind a slash a pointer goes on with the tokens that stand there. -/
theorem tokens?_append (front rest : List Char) :
    tokens? (front ++ '/' :: rest) =
      (tokens? front).map (· ++ (Text.splitAt '/' rest).map decodeToken) := by
  cases front with
  | nil => rfl
  | cons c cs =>
    by_cases hc : c = '/'
    · rw [hc, List.cons_append, tokens?, tokens?, Text.splitAt_append, List.map_append]
      rfl
    · simp [tokens?, hc]

theorem tokens?_of_endsIn (hends : EndsIn path front token) :
    tokens? path.toList = (tokens? front.toList).map (· ++ [decodeToken token]) := by
  obtain ⟨hpath, htoken⟩ := hends
  rw [hpath, tokens?_append, Text.splitAt_of_notMem htoken]
  rfl

theorem exists_endsIn_of_mem (hslash : '/' ∈ path.toList) :
    ∃ front token, EndsIn path front token := by
  obtain ⟨front, token, hcut⟩ := Text.exists_cutLast hslash
  refine ⟨String.ofList front, token, ?_⟩
  rwa [← cutLast_eq_some_iff_endsIn, String.toList_ofList]

/-- Every pointer that leads anywhere, except the empty one, has a last token. -/
theorem exists_endsIn (hlocation : resolve? document path = some location) (hne : path ≠ "") :
    ∃ front token, EndsIn path front token := by
  obtain ⟨tokens, htokens, -⟩ := exists_tokens_of_resolve? hlocation
  refine exists_endsIn_of_mem ?_
  cases hpath : path.toList with
  | nil => exact absurd (String.toList_eq_nil_iff.mp hpath) hne
  | cons c rest =>
    by_cases hc : c = '/'
    · simp [hc]
    · simp [hpath, tokens?, hc] at htokens

/-- The last token takes one step from the value that the pointer before it leads to. -/
theorem resolve?_eq_some_iff_of_endsIn (hends : EndsIn path front token) :
    resolve? document path = some location ↔
      ∃ above parent step inner, resolve? document front = some above ∧
        document.at? above = some parent ∧ step? parent (decodeToken token) = some step ∧
        parent.child? step = some inner ∧ location = above ++ [step] := by
  rw [resolve?, tokens?_of_endsIn hends, resolve?]
  cases tokens? front.toList with
  | none => simp
  | some tokens =>
    rw [Option.map_some, Option.bind_some, Option.bind_some, locate?_append_eq_some_iff]
    constructor
    · rintro ⟨above, parent, _, habove, hparent, hlast, rfl⟩
      obtain ⟨step, inner, _, hstep, hinner, hnil, rfl⟩ := locate?_cons_eq_some_iff.mp hlast
      obtain rfl := Option.some.inj hnil
      exact ⟨above, parent, step, inner, habove, hparent, hstep, hinner, rfl⟩
    · rintro ⟨above, parent, step, inner, habove, hparent, hstep, hinner, rfl⟩
      exact ⟨above, parent, [step], habove, hparent,
        locate?_cons_eq_some_iff.mpr ⟨step, inner, [], hstep, hinner, rfl, rfl⟩, rfl⟩

end Last

end Pointer
end Conform.Json
