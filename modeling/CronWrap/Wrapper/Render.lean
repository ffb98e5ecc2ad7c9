import CronWrap.Settings.Basic
import CronWrap.Wrapper.Plan

/-! The text of generated modules. -/
namespace CronWrap.Wrapper

def lines (ls : List String) : String := String.join (ls.map (· ++ "\n"))

/-- The module that sleeps until the next occurrence and then starts the function, again and
again. -/
def schedulerLines (w : Wrapper) (settings : Settings) : List String :=
  let f := w.functionName
  let step := Layout.stepName f
  let log := Layout.messagePrefix
  let start := settings.startName
  let sleep := settings.sleepName
  [ "/**",
    s!" * Auto-generated cron scheduler for {f}",
    " * DO NOT EDIT - regenerated on every build by cronstart",
    " *",
    " * Runs forever: sleep until the next cron occurrence, then start a new,",
    s!" * independent run of {f} with its own runId.",
    " */",
    "",
    importLine start none settings.startModule,
    importLine sleep none settings.sleepModule,
    importLine f w.importedName w.importPath,
    "",
    "interface CronSchedulerConfig \x7b",
    "    args: unknown[]",
    "    cron: string",
    "    timezone?: string",
    "    onError?: \"continue\" | \"stop\"",
    "\x7d",
    "",
    s!"async function {step}(args: unknown[]): Promise<\x7b runId: string \x7d> \x7b",
    "    \"use step\"",
    "",
    s!"    const run = await {start}({f}, args as Parameters<typeof {f}>)",
    "    return \x7b runId: run.runId \x7d",
    "\x7d",
    "",
    s!"export async function {w.name}(config: CronSchedulerConfig) \x7b",
    "    \"use workflow\"",
    "",
    "    const \x7b args, cron, timezone, onError = \"continue\" \x7d = config",
    "",
    s!"    console.log(`{log} Cron scheduler started for {f}`)",
    s!"    console.log(`{log} Schedule: $\x7bcron\x7d, Timezone: $\x7btimezone || \"UTC\"\x7d`)",
    "",
    "    while (true) \x7b",
    s!"        await {sleep}(cron, \x7b timezone \x7d)",
    "",
    "        try \x7b",
    s!"            const run = await {step}(args)",
    s!"            console.log(`{log} Started {f} run: $\x7brun.runId\x7d`)",
    "        \x7d catch (error) \x7b",
    "            if (onError === \"stop\") \x7b",
    s!"                console.error(\"{log} Failed to start {f}, stopping:\", error)",
    "                throw error",
    "            \x7d",
    s!"            console.error(\"{log} Failed to start {f}, continuing:\", error)",
    "        \x7d",
    "    \x7d",
    "\x7d" ]

def schedulerText (w : Wrapper) (settings : Settings) : String := lines (schedulerLines w settings)

/-- The import of a wrapper in the discovery module. -/
def discoveryImport (w : Wrapper) : String :=
  let source := Text.quote ("./" ++ w.directory ++ "/" ++ Layout.schedulerModule)
  s!"import \x7b {w.name} \x7d from {source}"

/-- The module that exports every wrapper, so that all are found without a walk over directories. -/
def discoveryLines (ws : List Wrapper) : List String :=
  let names := ", ".intercalate (ws.map (·.name))
  let quoted := ", ".intercalate (ws.map fun w => Text.quote w.name)
  [ "/**",
    " * Auto-generated discovery route for cron schedulers",
    " * DO NOT EDIT - regenerated on every build by cronstart",
    " *",
    " * Imports every scheduler so the workflow build discovers them without",
    " * walking the trigger directories.",
    " */",
    "" ] ++ ws.map discoveryImport ++
  [ "",
    s!"export \x7b {names} \x7d",
    "",
    "export async function GET() \x7b",
    "    return Response.json(\x7b",
    "        message: \"cronstart discovery endpoint\",",
    s!"        schedulers: [{quoted}],",
    "    \x7d)",
    "\x7d" ]

def discoveryText (ws : List Wrapper) : String := lines (discoveryLines ws)

end CronWrap.Wrapper
