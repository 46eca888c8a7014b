import Chip8.Assembly
import Chip8.Disassembly
import Chip8.Host.Page
import Chip8.Machine.Run
import Chip8.Proofs.Decoding
import Chip8.Proofs.Drawing
import Chip8.Proofs.Performing
import Chip8.Proofs.Stepping
import Chip8.Proofs.Faults
import Chip8.Proofs.Conformance
import Chip8.Proofs.Reaching
import Chip8.Proofs.Status
import Chip8.Proofs.Continuing
import Chip8.Proofs.Calling
import Chip8.Proofs.Hosting
import Chip8.Proofs.Repainting
import Chip8.Proofs.Restarting
import Chip8.Proofs.Unrolling
import Chip8.Proofs.Stopping
import Chip8.Proofs.Chronicling
import Chip8.Proofs.Footprint
import Chip8.Proofs.Recalling
import Chip8.Proofs.Sampling
import Chip8.Proofs.Encoding
import Chip8.Proofs.Listing
import Chip8.Proofs.Spelling
import Chip8.Proofs.Extent
import Chip8.Proofs.Assembling
import Chip8.Proofs.Surroundings
import Chip8.Proofs.Tracing
import Chip8.Proofs.Announcing
import Chip8.Proofs.Overlooking
import Chip8.Proofs.Timing
import Chip8.Proofs.Pressing
import Chip8.Proofs.Choosing
import Chip8.Proofs.Sprites
import Chip8.Proofs.Centering
import Chip8.Proofs.Ticking
import Chip8.Proofs.Touching
import Chip8.Proofs.Advancing
import Chip8.Proofs.Waiting
import Chip8.Proofs.Interleaving
import Chip8.Proofs.Toggling
import Chip8.Proofs.Balancing
import Chip8.Proofs.Saving
import Chip8.Proofs.Reading
import Chip8.Proofs.Layering
import Chip8.Proofs.Nesting
