import Prune.Proofs.Directive.Names
import Prune.Proofs.Session

/-!
# Settings of the command line

What is given on the command line comes before what the configuration file says.  A symbol has the
value that the last definition of its name gives it (`Define.last?`), and otherwise its value in the
file (`Project.get?_define`).  A switch that is turned on or off has this flag whatever the letter
case in which the file and the command line spell its name, and the switches of other names keep the
flags that they have in the file (`Project.flag?_turn`).  So does every project that is opened
(`Session.options_openProject`).
-/

namespace Prune

/-! ### Definitions -/

/-- The value that a definition gives to a name. -/
def Define.valueFor? (name text : String) : Option Json :=
  match parse text with
  | .ok (other, value) => if other = name then some value else none
  | .error _ => none

/-- The value that a name has from the last of some definitions that names it. -/
def Define.last? (texts : List String) (name : String) : Option Json :=
  texts.reverse.findSome? (valueFor? name)

theorem Define.last?_cons (text : String) (texts : List String) (name : String) :
  last? (text :: texts) name = (last? texts name).or (valueFor? name text)
  := by
  rw [last?, List.reverse_cons, List.findSome?_append, ← last?, List.findSome?_singleton]

theorem Table.get?_put {α : Type} (t : Table α) (name : String) (value : α) (other : String) :
  get? (put t name value) other = if name = other then some value else get? t other
  := by
  induction t with
  | nil => rw [put, get?_cons]
  | cons entry t ih =>
      rw [put]
      split
      · next hname =>
        rw [beq_iff_eq] at hname
        rw [get?_cons, get?_cons, hname]
        split
        · rfl
        · rfl
      · next hname =>
        rw [beq_iff_eq] at hname
        rw [get?_cons, get?_cons, ih]
        split
        · next hother =>
          rw [← hother, if_neg (Ne.symm hname)]
        · rfl

namespace Project

/-- The last definition of a name decides, or else the symbols at hand do. -/
theorem get?_define {texts : List String} {symbols defined : Condition.Symbols}
    (h : define symbols texts = .ok defined) (name : String) :
  Table.get? defined name = (Define.last? texts name).or (Table.get? symbols name)
  := by
  induction texts generalizing symbols with
  | nil =>
      obtain rfl := Except.ok.inj h
      rfl
  | cons text texts ih =>
      cases hparse : Define.parse text with
      | error e =>
          rw [define, List.foldlM_cons, hparse] at h
          contradiction
      | ok definition =>
          obtain ⟨other, value⟩ := definition
          rw [define, List.foldlM_cons, hparse] at h
          have hrest : define (symbols.put other value) texts = .ok defined := h
          have hvalue : Define.valueFor? name text = if other = name then some value else none := by
            rw [Define.valueFor?, hparse]
          rw [ih hrest, Table.get?_put, Define.last?_cons, hvalue, Option.or_assoc]
          by_cases heq : other = name
          · rw [if_pos heq, if_pos heq, Option.some_or]
          · rw [if_neg heq, if_neg heq, Option.none_or]

/-- Turning switches on or off gives this flag to the directives of their names, and leaves all
others theirs. -/
theorem flag?_turn (switches : Switches) (names : List String) (flag : Bool) (t : String) :
  (turn switches names flag).flag? (Text.lower t)
    = if ∃ s ∈ names, Text.lower s = Text.lower t then some flag
      else switches.flag? (Text.lower t)
  := by
  induction names generalizing switches with
  | nil => simp [turn]
  | cons s names ih =>
      have hturn : turn switches (s :: names) flag
          = turn (switches.putSorted (Text.lower s) flag) names flag := rfl
      rw [hturn, ih, Switches.flag?_putSorted]
      by_cases hs : Text.lower s = Text.lower t
      · rw [if_pos hs, ite_self, if_pos ⟨s, List.mem_cons_self, hs⟩]
      · simp only [List.mem_cons, exists_eq_or_imp, hs, false_or, if_false]

/-- What a project has from its configuration file and the command line. -/
theorem exists_of_project? {settings : Settings} {t : FileTree} {p : Project}
    (h : settings.project? t = some p) :
  ∃ loaded symbols, Config.load t settings.searchDirectory = .ok loaded ∧
    define loaded.config.symbols settings.defines = .ok symbols ∧
    p.options = ⟨symbols,
      turn (turn loaded.config.switches settings.enables true) settings.disables false⟩
  := by
  rw [Settings.project?] at h
  cases hload : Config.load t settings.searchDirectory with
  | error e =>
      rw [hload] at h
      contradiction
  | ok loaded =>
      rw [hload] at h
      have hproject : (ofConfig loaded.config settings).toOption = some p := h
      rw [ofConfig] at hproject
      cases hsymbols : define loaded.config.symbols settings.defines with
      | error e =>
          rw [hsymbols] at hproject
          contradiction
      | ok symbols =>
          rw [hsymbols] at hproject
          obtain rfl := Option.some.inj hproject
          exact ⟨loaded, symbols, rfl, hsymbols, rfl⟩

end Project

namespace Session

/-- In every project that is opened, symbols have the values of their last definitions on the
command line, or else those of the configuration file.  A directive has the flag of the command
line, where turning off comes before turning on, or else the one of the file. -/
theorem options_openProject {settings : Settings} {p : Project} {w w' : World}
    (h : (openProject settings).run w = .ok p w') :
  ∃ loaded, Config.load w.tree settings.searchDirectory = .ok loaded ∧
    (∀ name, Table.get? p.options.symbols name
      = (Define.last? settings.defines name).or (Table.get? loaded.config.symbols name)) ∧
    ∀ text line d, Directive.parse text line = some d →
      p.options.switches.flag? d.kind.name
        = if ∃ s ∈ settings.disables, Text.lower s = d.kind.name then some false
          else if ∃ s ∈ settings.enables, Text.lower s = d.kind.name then some true
          else loaded.config.switches.flag? d.kind.name
  := by
  have hproject : settings.project? w.tree = some p := ((leaves_openProject settings).ok p w' h).2
  obtain ⟨loaded, symbols, hload, hsymbols, hoptions⟩ := Project.exists_of_project? hproject
  rw [hoptions]
  refine ⟨loaded, hload, Project.get?_define hsymbols, ?_⟩
  intro text line d hd
  obtain ⟨t, ht⟩ := Directive.exists_lower_of_parse hd
  rw [ht, Project.flag?_turn, Project.flag?_turn]

/-- The letter case of names counts for symbols, but not for switches. -/
theorem options_openProject_spellings :
  let settings : Settings :=
    { defines := ["A=x", "A=y"], enables := ["debug", "Log"], disables := ["DEBUG", "Trace"] }
  let w : World := {
    tree := {
      entries := [
        (["home", ".ifdefrc.json"],
          .file ("\x7b\"symbols\": \x7b\"A\": true, \"a\": true\x7d, \"directives\": "
            ++ "\x7b\"Debug\": true, \"LOG\": false, \"Test\": true\x7d\x7d").toUTF8)]
      workingDirectory := ["home"] } }
  ∃ p w' loaded, (openProject settings).run w = .ok p w' ∧
    Config.load w.tree settings.searchDirectory = .ok loaded ∧
    Table.get? p.options.symbols "A" = some (.string "y") ∧
    Table.get? p.options.symbols "a" = Table.get? loaded.config.symbols "a" ∧
    (Table.get? loaded.config.symbols "a").isSome = true ∧
    p.options.switches.flag? "debug" = some false ∧
    p.options.switches.flag? "log" = some true ∧
    p.options.switches.flag? "test" = some true
  := by
  intro settings w
  have hopens : ((openProject settings).run' w).isSome = true := by decide +kernel
  have hfile : (Config.load w.tree settings.searchDirectory).toOption.map (fun loaded =>
      ((Table.get? loaded.config.symbols "a").isSome, loaded.config.switches.flag? "test"))
      = some (true, some true) := by
    decide +kernel
  cases hrun : (openProject settings).run w with
  | error e w' =>
      rw [EStateM.run', hrun] at hopens
      contradiction
  | ok p w' =>
      obtain ⟨loaded, hload, hsymbols, hflags⟩ := options_openProject hrun
      rw [hload] at hfile
      obtain ⟨hsymbol, htest⟩ := Prod.mk.inj (Option.some.inj hfile)
      refine ⟨p, w', loaded, rfl, hload, ?_, ?_, hsymbol, ?_, ?_, ?_⟩
      · rw [hsymbols]
        rfl
      · rw [hsymbols]
        rfl
      · exact (hflags "#debug" 0 ⟨.switch "debug", none, 0⟩ (by decide)).trans (if_pos (by decide))
      · refine (hflags "#log" 0 ⟨.switch "log", none, 0⟩ (by decide)).trans ?_
        exact (if_neg (by decide)).trans (if_pos (by decide))
      · refine (hflags "#test" 0 ⟨.switch "test", none, 0⟩ (by decide)).trans ?_
        exact (if_neg (by decide)).trans ((if_neg (by decide)).trans htest)

end Session

end Prune
