import Mathlib.Data.List.Flatten
import Mathlib.Data.List.Nodup
import RootFinding.Decimal.Instance
import RootFinding.Proofs.Outcome
import RootFinding.Report.Style

/-!
# The forest of styles

Styles are added one after the other, each below one that is there already or at the top, and calls
with a name that is taken or a parent that is missing are refused. What a style does to a text is
told by the names in these calls alone.

* `StyleRequest`: what a call is given. `PrintStyles.called`, `PrintStyles.granted`: the collection
  after some calls, and those of them that were not refused.
* `Lineage gs name chain`: the granted requests from a name up to the top, by the names of parents.
* `PrintStyles.Forest gs p`: the names are distinct, every link leads to an earlier request, and the
  collection holds for each request the style that it asks for. `Forest.grant` is the step,
  `Forest.called` the induction.
* `Decoration.marks`: what a chain of styles puts before a text, `Style.apply_eq_marks`.
* `PrintStyles.pieces`, `PrintStyles.output`: what calls of `print` write while styles are shown up
  to a level. `PrintStyles.pieces_sublist`: it is written up to every higher level too.
-/

namespace RootFinding

open Action
open scoped List

variable {p t : PrintStyles} {q : StyleRequest} {gs qs chain chain' : List StyleRequest}
  {name : String}

/-! ## Marks before a text -/

/-- The marks of a chain of styles, from the outermost to the innermost: those of its first styles
up to the nearest plain one. The last one of the chain stands at the top and adds nothing. -/
def Decoration.marks (chain : List Decoration) : String :=
  String.join ((chain.dropLast.takeWhile (· ≠ .plain)).reverse.map mark)

namespace Style

/-- The decorations from a style up to its top. -/
def decorations : Style → List Decoration
  | top d => [d]
  | under d parent => d :: parent.decorations

theorem decorations_ne_nil (s : Style) : s.decorations ≠ [] := by
  cases s <;> simp [decorations]

theorem level_eq_length (s : Style) : s.level = s.decorations.length := by
  induction s with
  | top d => rfl
  | under d parent ih => rw [level, ih, decorations, List.length_cons]

end Style

namespace Decoration

theorem marks_plain (ds : List Decoration) : marks (.plain :: ds) = "" := by
  cases ds <;> rfl

theorem marks_cons {d : Decoration} (hd : d ≠ .plain) {ds : List Decoration} (hds : ds ≠ []) :
    marks (d :: ds) = marks ds ++ d.mark := by
  rw [marks, List.dropLast_cons_of_ne_nil hds, List.takeWhile_cons_of_pos (by simpa using hd),
    List.reverse_cons, List.map_append, String.join_append, marks]
  simp

end Decoration

/-- A style puts the marks of its chain before a text, whatever the text is. -/
theorem Style.apply_eq_marks (s : Style) (text : String) :
    s.apply text = Decoration.marks s.decorations ++ text := by
  induction s generalizing text with
  | top d => simp [apply, decorations, Decoration.marks]
  | under d parent ih =>
    by_cases hd : d = .plain
    · subst hd
      rw [apply, decorations, Decoration.marks_plain, String.empty_append]
    · rw [decorations, Decoration.marks_cons hd parent.decorations_ne_nil, String.append_assoc,
        ← ih]
      cases d with
      | plain => exact absurd rfl hd
      | dots | stars => rfl

/-! ## Calls that add a style -/

/-- What a call is given that adds a style. -/
structure StyleRequest where
  name : String
  decoration : Decoration
  parent : Option String := none
  deriving DecidableEq, Repr

namespace StyleRequest

/-- The parent that is asked for; no name and the empty one stand for the top. -/
def parent? (q : StyleRequest) : Option String := q.parent.filter (!·.isEmpty)

/-- The call on a collection in use. -/
def call (q : StyleRequest) : Action Fault PrintStyles Unit := do
  let p ← get
  set (← ofExcept (p.add q.name q.decoration q.parent))

/-- A style stands where a request asks for it: at the top, or below the style with the name of its
parent. -/
inductive Placed (p : PrintStyles) (q : StyleRequest) : Style → Prop
  | top (link : q.parent? = none) : Placed p q (.top q.decoration)
  | under {parent : String} {s : Style} (link : q.parent? = some parent)
    (found : p.find? parent = some s) : Placed p q (.under q.decoration s)

end StyleRequest

namespace PrintStyles

def names (p : PrintStyles) : List String := p.styles.map Prod.fst

/-- The collection with one style more. -/
def extended (p : PrintStyles) (name : String) (s : Style) : PrintStyles :=
  { p with styles := p.styles ++ [(name, s)] }

/-- The collection after some calls. -/
def called (p : PrintStyles) : List StyleRequest → PrintStyles
  | [] => p
  | q :: qs => called (q.call.eval p).2 qs

/-- The requests of some calls that are granted. -/
def granted (p : PrintStyles) : List StyleRequest → List StyleRequest
  | [] => []
  | q :: qs =>
    if (q.call.eval p).1.isOk then q :: granted (q.call.eval p).2 qs
    else granted (q.call.eval p).2 qs

theorem granted_of_ok (h : q.call.eval p = (.ok (), t)) :
    granted p (q :: qs) = q :: granted t qs ∧ called p (q :: qs) = called t qs := by
  simp [granted, called, h, Except.isOk, Except.toBool]

theorem granted_of_error {f : Fault} (h : q.call.eval p = (.error f, t)) :
    granted p (q :: qs) = granted t qs ∧ called p (q :: qs) = called t qs := by
  simp [granted, called, h, Except.isOk, Except.toBool]

theorem find?_eq_none : p.find? name = none ↔ name ∉ p.names := by
  rw [find?, List.lookup_eq_none_iff, names, List.mem_map]
  constructor
  · rintro h ⟨entry, hentry, rfl⟩
    simpa using h entry hentry
  · intro h entry hentry
    simpa using fun heq => h ⟨entry, hentry, Eq.symm heq⟩

theorem exists_find? : (∃ s, p.find? name = some s) ↔ name ∈ p.names := by
  rw [← Option.isSome_iff_exists, Option.isSome_iff_ne_none, ne_eq, find?_eq_none, not_not]

@[simp] theorem names_extended (s : Style) : (p.extended name s).names = p.names ++ [name] := by
  simp [names, extended]

/-- Styles that are there already stay. -/
theorem find?_extended {s s' : Style} {name' : String} (h : p.find? name' = some s') :
    (p.extended name s).find? name' = some s' := by
  rw [find?] at h
  simp [find?, extended, List.lookup_append, h]

theorem find?_extended_self (h : name ∉ p.names) (s : Style) :
    (p.extended name s).find? name = some s := by
  rw [← find?_eq_none, find?] at h
  simp [find?, extended, List.lookup_append, h]

end PrintStyles

namespace StyleRequest

theorem Placed.extended {s s' : Style} (h : q.Placed p s) :
    q.Placed (p.extended name s') s := by
  cases h with
  | top link => exact .top link
  | under link found => exact .under link (PrintStyles.find?_extended found)

theorem Placed.eq_top {s : Style} (h : q.Placed p s) (hlink : q.parent? = none) :
    s = .top q.decoration := by
  cases h with
  | top => rfl
  | under link => cases link.symm.trans hlink

theorem Placed.eq_under {s : Style} {parent : String} (h : q.Placed p s)
    (hlink : q.parent? = some parent) :
    ∃ s', p.find? parent = some s' ∧ s = .under q.decoration s' := by
  cases h with
  | top link => cases link.symm.trans hlink
  | under link found =>
    cases link.symm.trans hlink
    exact ⟨_, found, rfl⟩

/-- What a collection answers to a request for a style: the style in its place, or that the parent
is missing. -/
theorem styleBelow_spec (p : PrintStyles) (q : StyleRequest) :
    (∃ s, p.styleBelow q.decoration q.parent = .ok s ∧ q.Placed p s) ∨
      ∃ parent ∈ q.parent?, parent ∉ p.names ∧
        p.styleBelow q.decoration q.parent = .error (.refused (.parentMissing parent)) := by
  unfold PrintStyles.styleBelow
  cases hlink : q.parent? with
  | none =>
    refine .inl ⟨.top q.decoration, ?_, .top hlink⟩
    rw [show q.parent.filter (!·.isEmpty) = none from hlink]
  | some parent =>
    rw [show q.parent.filter (!·.isEmpty) = some parent from hlink]
    dsimp only
    cases hfound : p.find? parent with
    | none => exact .inr ⟨parent, rfl, PrintStyles.find?_eq_none.1 hfound, rfl⟩
    | some s => exact .inl ⟨_, rfl, .under hlink hfound⟩

/-- Why a request is refused: its name is taken, or its parent is missing. -/
inductive Refused (p : PrintStyles) (q : StyleRequest) : Fault → Prop
  | taken (name : q.name ∈ p.names) : Refused p q (.refused (.styleExists q.name))
  | orphaned {parent : String} (name : q.name ∉ p.names) (link : q.parent? = some parent)
    (missing : parent ∉ p.names) : Refused p q (.refused (.parentMissing parent))

/-- A request is granted with one style more, which stands where it is asked for, or it is refused
for a cause. -/
theorem add_spec (p : PrintStyles) (q : StyleRequest) :
    (∃ s, q.name ∉ p.names ∧ q.Placed p s ∧
        p.add q.name q.decoration q.parent = .ok (p.extended q.name s)) ∨
      ∃ f, q.Refused p f ∧ p.add q.name q.decoration q.parent = .error f := by
  unfold PrintStyles.add
  cases hname : p.find? q.name with
  | some s => exact .inr ⟨_, .taken (PrintStyles.exists_find?.1 ⟨s, hname⟩), rfl⟩
  | none =>
    have hfree : q.name ∉ p.names := PrintStyles.find?_eq_none.1 hname
    obtain ⟨s, hs, hplaced⟩ | ⟨parent, hlink, hmissing, hs⟩ := styleBelow_spec p q
    · exact .inl ⟨s, hfree, hplaced, by rw [hs]; rfl⟩
    · exact .inr ⟨_, .orphaned hfree hlink hmissing, by rw [hs]; rfl⟩

/-- What a call leaves: the collection with one style more, or the collection as it was. -/
theorem call_spec (q : StyleRequest) (p : PrintStyles) :
    q.call.Ends p
      (fun _ t => q.name ∉ p.names ∧ ∃ s, q.Placed p s ∧ t = p.extended q.name s)
      (fun f t => q.Refused p f ∧ t = p) := by
  rw [call, ends_bind, ends_get, ends_bind]
  obtain ⟨s, hfree, hplaced, hadd⟩ | ⟨f, hrefused, hadd⟩ := add_spec p q
  · rw [hadd]
    exact ⟨hfree, s, hplaced, rfl⟩
  · rw [hadd]
    exact ⟨hrefused, rfl⟩

end StyleRequest

/-! ## The forest -/

/-- The granted requests from a name up to the top, by the names of the parents. -/
inductive Lineage (gs : List StyleRequest) : String → List StyleRequest → Prop
  | top {name : String} {q : StyleRequest} (granted : q ∈ gs) (named : q.name = name)
    (link : q.parent? = none) : Lineage gs name [q]
  | under {name parent : String} {q : StyleRequest} {chain : List StyleRequest} (granted : q ∈ gs)
    (named : q.name = name) (link : q.parent? = some parent) (above : Lineage gs parent chain) :
    Lineage gs name (q :: chain)

namespace PrintStyles

/-- Calls that are refused can be left out. -/
theorem called_granted (p : PrintStyles) (qs : List StyleRequest) :
    p.called (p.granted qs) = p.called qs := by
  induction qs generalizing p with
  | nil => rfl
  | cons q qs ih =>
    rcases hcall : q.call.eval p with ⟨f | _, t⟩
    · obtain ⟨-, rfl⟩ := (q.call_spec p).error hcall
      rw [(granted_of_error hcall).1, (granted_of_error hcall).2, ih]
    · rw [(granted_of_ok hcall).1, (granted_of_ok hcall).2, (granted_of_ok hcall).2, ih]

/-- A collection that holds what some requests ask for, each after the request for its parent. -/
structure Forest (gs : List StyleRequest) (p : PrintStyles) : Prop where
  names : p.names = gs.map StyleRequest.name
  distinct : (gs.map StyleRequest.name).Nodup
  /-- The links of the names lead to earlier requests, so they cannot run in a circle. -/
  earlier : ∀ before q, before ++ [q] <+: gs → ∀ parent ∈ q.parent?,
    parent ∈ before.map StyleRequest.name
  placed : ∀ q ∈ gs, ∃ s, p.find? q.name = some s ∧ q.Placed p s

theorem Forest.empty (level : Int) : Forest [] { level } where
  names := rfl
  distinct := .nil
  earlier before q h := by simp at h
  placed := by simp

/-- One style more. -/
theorem Forest.grant (h : Forest gs p) {s : Style} (hfree : q.name ∉ p.names)
    (hplaced : q.Placed p s) : Forest (gs ++ [q]) (p.extended q.name s) where
  names := by rw [names_extended, h.names, List.map_append, List.map_singleton]
  distinct := by
    rw [h.names] at hfree
    simpa [List.nodup_append, h.distinct] using hfree
  earlier before r hr parent hlink := by
    rcases List.prefix_concat_iff.1 hr with heq | hbefore
    · -- the new request: its parent is in the collection, so it has been granted before
      obtain ⟨rfl, hlast⟩ := List.append_inj' heq rfl
      cases hlast
      obtain ⟨s', found, -⟩ := hplaced.eq_under hlink
      exact h.names ▸ exists_find?.1 ⟨s', found⟩
    · exact h.earlier before r hbefore parent hlink
  placed r hr := by
    rcases List.mem_append.1 hr with hr | hr
    · obtain ⟨s', hs', hplaced'⟩ := h.placed r hr
      exact ⟨s', find?_extended hs', hplaced'.extended⟩
    · cases List.mem_singleton.1 hr
      exact ⟨s, find?_extended_self hfree s, hplaced.extended⟩

/-- After any calls a collection holds what the granted ones have asked for. -/
theorem Forest.called (h : Forest gs p) (qs : List StyleRequest) :
    Forest (gs ++ granted p qs) (p.called qs) := by
  induction qs generalizing gs p with
  | nil => rwa [granted, List.append_nil]
  | cons q qs ih =>
    have hspec := q.call_spec p
    rcases hcall : q.call.eval p with ⟨f | _, t⟩
    · obtain ⟨-, rfl⟩ := hspec.error hcall
      rw [(granted_of_error hcall).1, (granted_of_error hcall).2]
      exact ih h
    · obtain ⟨hfree, s, hplaced, rfl⟩ := hspec.ok hcall
      rw [(granted_of_ok hcall).1, (granted_of_ok hcall).2, List.append_cons]
      exact ih (h.grant hfree hplaced)

/-- A name has one lineage only. -/
theorem Forest.lineage_unique (h : Forest gs p) (hc : Lineage gs name chain)
    (hc' : Lineage gs name chain') : chain' = chain := by
  -- the names are distinct, so at every link both lineages go through one request
  have hsame : ∀ {r r' : StyleRequest}, r ∈ gs → r' ∈ gs → r.name = r'.name → r = r' :=
    fun hr hr' heq => List.inj_on_of_nodup_map h.distinct hr hr' heq
  induction hc generalizing chain' with
  | top granted named link =>
    cases hc' with
    | top granted' named' link' => rw [hsame granted granted' (named.trans named'.symm)]
    | under granted' named' link' above' =>
      cases hsame granted granted' (named.trans named'.symm)
      cases link.symm.trans link'
  | under granted named link above ih =>
    cases hc' with
    | top granted' named' link' =>
      cases hsame granted granted' (named.trans named'.symm)
      cases link.symm.trans link'
    | under granted' named' link' above' =>
      cases hsame granted granted' (named.trans named'.symm)
      cases link.symm.trans link'
      rw [ih above']

/-- A style that is held has been asked for. -/
theorem Forest.exists_request (h : Forest gs p) {s : Style} (hs : p.find? name = some s) :
    ∃ q ∈ gs, q.name = name ∧ q.Placed p s := by
  have hname := exists_find?.1 ⟨s, hs⟩
  rw [h.names] at hname
  obtain ⟨q, hq, rfl⟩ := List.mem_map.1 hname
  obtain ⟨s', hs', hplaced⟩ := h.placed q hq
  cases hs.symm.trans hs'
  exact ⟨q, hq, rfl, hplaced⟩

/-- A style that is held has a lineage of the decorations that it is made of. -/
theorem Forest.exists_lineage (h : Forest gs p) {s : Style} (hs : p.find? name = some s) :
    ∃ chain, Lineage gs name chain ∧ chain.map StyleRequest.decoration = s.decorations := by
  -- a style holds its parent, which is the one that is held for the name above
  induction s generalizing name with
  | top d =>
    obtain ⟨q, hq, hname, hplaced⟩ := h.exists_request hs
    cases hplaced with
    | top link => exact ⟨[q], .top hq hname link, rfl⟩
  | under d parent ih =>
    obtain ⟨q, hq, hname, hplaced⟩ := h.exists_request hs
    cases hplaced with
    | under link found =>
      obtain ⟨chain, hchain, heq⟩ := ih found
      exact ⟨q :: chain, .under hq hname link hchain, by rw [List.map_cons, heq]; rfl⟩

/-- A style stands one level below its parent, or at the first level. -/
theorem Forest.level_eq (h : Forest gs p) (hq : q ∈ gs) :
    ∃ s, p.find? q.name = some s ∧ (q.parent? = none → s.level = 1) ∧
      ∀ parent ∈ q.parent?, ∃ s', p.find? parent = some s' ∧ s.level = s'.level + 1 := by
  obtain ⟨s, hs, hplaced⟩ := h.placed q hq
  refine ⟨s, hs, fun hlink => ?_, fun parent hlink => ?_⟩
  · rw [hplaced.eq_top hlink, Style.level]
  · obtain ⟨s', found, rfl⟩ := hplaced.eq_under hlink
    exact ⟨s', found, rfl⟩

/-- Applying the style of a name puts the marks of its chain before the text. -/
theorem apply_eq_marks {s : Style} (hs : p.find? name = some s) (text : String) :
    p.apply name text = .ok (Decoration.marks s.decorations ++ text) := by
  rw [apply, hs, ← s.apply_eq_marks]

end PrintStyles

/-! ## What is printed -/

/-- What a call of `print` is given: the name of a style or none, a level for this line, and the
line. -/
structure PrintCall (R K : Type) where
  style : Option String
  level : Option Int := none
  line : PrintLine R K

namespace PrintStyles

variable {R K : Type} [Written R] {d d' : Int}

/-- What a call writes while the collection shows its styles up to the level `d`. -/
def written (p : PrintStyles) (d : Int) (c : PrintCall R K) : String :=
  (({ p with level := d } : PrintStyles).print c.style c.level c.line).text

/-- What some calls write, without those that write nothing. -/
def pieces (p : PrintStyles) (d : Int) (calls : List (PrintCall R K)) : List String :=
  calls.flatMap fun c => [p.written d c].filter (· ≠ "")

/-- The output of some calls. -/
def output (p : PrintStyles) (d : Int) (calls : List (PrintCall R K)) : String :=
  String.join (calls.map (p.written d))

/-- A line in a style is printed, with the marks before it, from the level of the style on. -/
theorem written_eq {s : Style} (hs : p.find? name = some s) (d : Int) (level : Option Int)
    (l : PrintLine R K) :
    p.written d ⟨name, level, l⟩ =
      if (s.level : Int) ≤ level.getD d then
        PrintLine.render { l with text := Decoration.marks s.decorations ++ l.text }
      else "" := by
  have hfind : ({ p with level := d } : PrintStyles).find? name = some s := hs
  simp only [written, print, hfind, ← s.apply_eq_marks]
  split <;> rfl

/-- What a call writes up to a level it writes up to a higher one too. -/
theorem written_mono (p : PrintStyles) (h : d ≤ d') (c : PrintCall R K) :
    p.written d c = "" ∨ p.written d c = p.written d' c := by
  obtain ⟨style, level, line⟩ := c
  have hfind : ∀ e name, ({ p with level := e } : PrintStyles).find? name = p.find? name :=
    fun _ _ => rfl
  cases style with
  | none => exact .inr rfl
  | some name =>
    simp only [written, print, hfind]
    cases p.find? name with
    | none => exact .inr rfl
    | some s =>
      dsimp only
      split
      next hshown =>
        -- a level of the call's own takes the place of either level of the collection
        rw [if_pos]
        · exact .inr rfl
        · cases level with
          | none => exact Int.le_trans hshown h
          | some e => exact hshown
      next => exact .inl rfl

/-- What calls write up to a level is a subsequence of what they write up to a higher one, taken
apart in any way in which nothing has no parts. -/
theorem flatMap_written_sublist {α : Type} (p : PrintStyles) (h : d ≤ d') {f : String → List α}
    (hf : f "" = []) (calls : List (PrintCall R K)) :
    calls.flatMap (fun c => f (p.written d c)) <+ calls.flatMap fun c => f (p.written d' c) := by
  refine List.Sublist.flatMap_right _ fun c _ => ?_
  rcases p.written_mono h c with heq | heq
  · rw [heq, hf]
    exact List.nil_sublist _
  · rw [heq]

/-- The pieces that are written up to a level are among those of a higher one, in their order. -/
theorem pieces_sublist (p : PrintStyles) (h : d ≤ d') (calls : List (PrintCall R K)) :
    p.pieces d calls <+ p.pieces d' calls :=
  p.flatMap_written_sublist h (f := fun piece => [piece].filter (· ≠ "")) rfl calls

/-- The output up to a level, as a text, can be had from that of a higher one by leaving out. -/
theorem output_sublist (p : PrintStyles) (h : d ≤ d') (calls : List (PrintCall R K)) :
    (p.output d calls).toList <+ (p.output d' calls).toList := by
  rw [output, output, String.toList_join, String.toList_join, List.flatMap_map, List.flatMap_map]
  exact p.flatMap_written_sublist h rfl calls

/-- **Print styles are a forest and print by it.**  After any calls that add styles, the next call
either adds one style, in the place that it asks for, or it is refused for a cause and leaves the
collection as it was; so the granted ones alone lead to the collection. These have distinct names,
which are those of the collection, and each has its parent among the earlier ones or stands at the
top. A style is one level below its parent, or at the first level, and every name has one lineage up
to the top, as long as its level. Applying the style of a name puts the marks of the lineage before
any text, and a line in this style is printed so from the level of the style on. The output of any
calls up to a level, by its pieces and as a text, is a subsequence of the output up to a higher
level. -/
theorem called_faithful (R K : Type) [Written R] (level : Int) (qs : List StyleRequest) :
    let p := called { level } qs
    let gs := granted { level } qs
    (∀ q : StyleRequest, q.call.Ends p
      (fun _ t => q.name ∉ p.names ∧ ∃ s, q.Placed p s ∧ t = p.extended q.name s)
      (fun f t => q.Refused p f ∧ t = p)) ∧
    called { level } gs = p ∧ Forest gs p ∧
    (∀ q ∈ gs, ∃ s, p.find? q.name = some s ∧ (q.parent? = none → s.level = 1) ∧
      ∀ parent ∈ q.parent?, ∃ s', p.find? parent = some s' ∧ s.level = s'.level + 1) ∧
    (∀ name s, p.find? name = some s →
      ∃ chain, Lineage gs name chain ∧ (∀ chain', Lineage gs name chain' → chain' = chain) ∧
        s.level = chain.length ∧
        (∀ text, p.apply name text =
          .ok (Decoration.marks (chain.map StyleRequest.decoration) ++ text)) ∧
        ∀ d given (l : PrintLine R K), p.written d ⟨name, given, l⟩ =
          if (s.level : Int) ≤ given.getD d then
            PrintLine.render
              { l with text := Decoration.marks (chain.map StyleRequest.decoration) ++ l.text }
          else "") ∧
    ∀ (calls : List (PrintCall R K)) (d d' : Int), d ≤ d' →
      p.pieces d calls <+ p.pieces d' calls ∧
        (p.output d calls).toList <+ (p.output d' calls).toList := by
  intro p gs
  have hforest : Forest gs p := by
    simpa using (Forest.empty level).called qs
  refine ⟨fun q => q.call_spec p, called_granted _ qs, hforest, fun q hq => hforest.level_eq hq,
    fun name s hs => ?_, fun calls d d' h => ⟨p.pieces_sublist h calls, p.output_sublist h calls⟩⟩
  obtain ⟨chain, hc, heq⟩ := hforest.exists_lineage hs
  refine ⟨chain, hc, fun chain' hc' => hforest.lineage_unique hc hc', ?_, ?_, ?_⟩
  · rw [s.level_eq_length, ← heq, List.length_map]
  · rw [heq]
    exact apply_eq_marks hs
  · rw [heq]
    exact written_eq hs

/-! ## The styles of a solve -/

/-- The calls by which a solve comes to its styles. -/
def reportRequests : List StyleRequest :=
  [⟨"solver", .plain, none⟩, ⟨"iteration", .dots, some "solver"⟩,
    ⟨"notice", .stars, some "iteration"⟩]

theorem called_reportRequests (level : Int) :
    called { level } reportRequests = forSolve level :=
  rfl

/-- The same calls with two between them that are refused. -/
def crossedRequests : List StyleRequest :=
  [⟨"solver", .plain, none⟩, ⟨"iteration", .dots, some "solver"⟩, ⟨"solver", .stars, none⟩,
    ⟨"other", .dots, some "missing"⟩, ⟨"notice", .stars, some "iteration"⟩]

/-- A heading and the line of a step. -/
def headedLines : List (PrintCall Float Float) :=
  [⟨some "solver", none, { text := "A" }⟩, ⟨some "iteration", none, { text := "B" }⟩]

/-- Requests that are refused leave the styles of a solve as they are. A notice has both marks, and
the heading is printed with the line of a step below it or alone. -/
theorem crossedRequests_faithful :
    called { level := 1 } crossedRequests = forSolve 1 ∧
      granted { level := 1 } crossedRequests = reportRequests ∧
      Lineage reportRequests "notice" reportRequests.reverse ∧
      (forSolve 1).apply "notice" "x" = .ok "... *** x" ∧
      (forSolve 1).pieces 1 headedLines = ["A\n"] ∧
      (forSolve 1).pieces 2 headedLines = ["A\n", "... B\n"] ∧
      (forSolve 1).pieces 1 headedLines <+ (forSolve 1).pieces 2 headedLines := by
  have hgranted : granted { level := 1 } crossedRequests = reportRequests := by decide
  have hlineage : Lineage reportRequests "notice" reportRequests.reverse :=
    .under (by decide) rfl rfl (.under (by decide) rfl rfl (.top (by decide) rfl rfl))
  have h := called_faithful Float Float 1 crossedRequests
  have hcalled : called { level := 1 } crossedRequests = forSolve 1 := by
    rw [← h.2.1, hgranted, called_reportRequests]
  simp only [hcalled, hgranted] at h
  obtain ⟨-, -, -, -, hnames, hprinted⟩ := h
  obtain ⟨chain, -, hunique, -, happly, -⟩ := hnames "notice" _ rfl
  rw [← hunique _ hlineage] at happly
  exact ⟨hcalled, hgranted, hlineage, happly "x", by decide, by decide,
    (hprinted headedLines 1 2 (by decide)).1⟩

end PrintStyles

end RootFinding
