import ChainCompiler.Command.Session

/-! Starting a project: its configuration, an example to compile, and a list of what is not to be kept. -/

namespace ChainCompiler.Command.Run

def exampleSource : String :=
"// Example chain: answer a question with a tool-enabled model

schema Answer \x7b
    summary: string,
    confidence: number
\x7d

def WeatherTool = Tool(
    name=\"get_weather\",
    desc=\"Look up the current weather for a city\",
    func=getWeather,
    schema=\x7b type: \"object\", properties: \x7b city: \x7b type: \"string\" \x7d \x7d, required: [\"city\"] \x7d
)

def llm = Model(model_name=\"qwen2.5\")
def agent = llm @ bind(tools=[WeatherTool])
def ask = Prompt(\"Answer the question: \x7b\x7b question \x7d\x7d\")

chain Main = Input >> ask >> agent >> StringOutput
"

def newConfiguration (name : String) : String :=
"# LinkLang Project Configuration
name: " ++ name ++ "
version: \"0.1.0\"

# Where .chain sources live and where generated modules go
sources: chains
output: dist

target:
  runtime_module: \"../dist/tinychain.esm.js\"
  invoke_method: async_invoke
"

def ignoredFiles : String :=
"# Generated modules
dist/

# IDE
.idea/
.vscode/
*.swp
"

/-- The name of a project, which is that of its directory if none is given. The directory has to be there. -/
def projectName (path : Path) (name : Option String) : Run String := do
  match (← files).locate path with
  | .error e => throw (.system e)
  | .ok l =>
    match name <|> l.getLast? with
    | some name => return name
    | none => throw .nameless

def startProject (path : Path) (name : Option String) : Run Unit := do
  unless (← files).exists? path do makeAll path .system
  let name ← projectName path name
  if (← files).exists? (path.join ⟨Project.fileName⟩) then throw (.initialized path)
  makeAll (path.join ⟨"chains"⟩) .system
  write (path.join ⟨Project.fileName⟩) (newConfiguration name) .system
  write (path.join ⟨"chains/example.chain"⟩) exampleSource .system
  write (path.join ⟨".gitignore"⟩) ignoredFiles .system

end ChainCompiler.Command.Run
