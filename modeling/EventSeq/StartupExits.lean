import EventSeq.StartupGraph

/-!
# Why a program does not start

Each message that `main` prints before it exits is about the first entry of the configuration that is
wrong: of the nodes first, then of the channels.
-/

namespace EventSeq

variable {Setting : Type}

section

variable {p : ProgramPlatform Setting} {configRoot : Setting} {config env : FullConfig Setting}
  {predicates : EventPredicateList} {registry : TableState String (Option NodeType)} {exit : Exit}

end

/-- `load_config` reads this configuration, with these predicates. -/
def LoadedWith (p : ProgramPlatform Setting) (configRoot : Setting) (config : FullConfig Setting)
    (predicates : EventPredicateList) : Prop :=
  ∃ (registry : TableState String (Option NodeType)) (draws : Nat),
    registerModules p.config p.modules = .ok registry ∧
    loadConfig p.config (some configRoot) [] registry.draws = .ok (some (config, predicates, draws))

end EventSeq
