import SystemsProjects.Qthreads.Join
import SystemsProjects.Qthreads.Expiry
import SystemsProjects.Qthreads.Oversleep
import SystemsProjects.Qthreads.Cond
import SystemsProjects.Qthreads.Deadlock
import SystemsProjects.BareMetal.Agreement
import SystemsProjects.BareMetal.Bounds
import SystemsProjects.BareMetal.RoundTrip
import SystemsProjects.BareMetal.Flags
import SystemsProjects.BareMetal.Lengths
import SystemsProjects.BareMetal.Simulator
import SystemsProjects.BareMetal.Memory
import SystemsProjects.BareMetal.Calls
import SystemsProjects.BareMetal.Operators
import SystemsProjects.BareMetal.Grammar
import SystemsProjects.BareMetal.Hello
import SystemsProjects.BareMetal.Directives
import SystemsProjects.Qthreads.Order
import SystemsProjects.Shell.FrontEnd
import SystemsProjects.Shell.Limits
import SystemsProjects.Shell.Session
import SystemsProjects.Shell.Cleanup
import SystemsProjects.Shell.Status
import SystemsProjects.Shell.Segments
import SystemsProjects.Shell.Quoting
import SystemsProjects.Qthreads.Dispatch
import SystemsProjects.BareMetal.Tracing
import SystemsProjects.Qthreads.Completion
